import Earley.Chart.Checked
import Earley.Chart.Passed
import Earley.Chart.Schedule
import Earley.Chart.Worklist
import Earley.Forest.Checked
import Earley.Forest.Frontier
import Earley.Forest.Marked
import Earley.Forest.Sorting
import Earley.Forest.Uncached
import Earley.Grammar.Choices
import Earley.Grammar.Construction
import Earley.Grammar.Derivation
import Earley.Grammar.History
import Earley.Grammar.Interning
import Earley.Grammar.Passes
import Earley.Grammar.Prospects
import Earley.Grammar.Refusals
import Earley.Grammar.Repricing
import Earley.Grammar.Spelling
import Earley.Grammar.Twins
import Earley.Grammar.Usages
import Earley.Grammar.Vanishing
import Earley.Parser
import Earley.Parser.Checked
import Earley.Parser.Source
import Earley.Proofs.Analysis
import Earley.Proofs.AnalysisExactness
import Earley.Proofs.AnalysisPasses
import Earley.Proofs.CanonicalTrees
import Earley.Proofs.ChartBound
import Earley.Proofs.ChartChecked
import Earley.Proofs.ChartClosure
import Earley.Proofs.ChartCompleteness
import Earley.Proofs.ChartFrames
import Earley.Proofs.ChartItems
import Earley.Proofs.ChartKeys
import Earley.Proofs.ChartOrder
import Earley.Proofs.ChartRemarks
import Earley.Proofs.ChartRepresentation
import Earley.Proofs.ChartRepricing
import Earley.Proofs.ChartRun
import Earley.Proofs.ChartState
import Earley.Proofs.ChartWorklist
import Earley.Proofs.CheapestPairs
import Earley.Proofs.Collapse
import Earley.Proofs.Construction
import Earley.Proofs.Derivation
import Earley.Proofs.Enclosure
import Earley.Proofs.ExactForests
import Earley.Proofs.ExpectedUsages
import Earley.Proofs.Extension
import Earley.Proofs.ForestActive
import Earley.Proofs.ForestAgreement
import Earley.Proofs.ForestBest
import Earley.Proofs.ForestBuilder
import Earley.Proofs.ForestChecked
import Earley.Proofs.ForestClear
import Earley.Proofs.ForestCycles
import Earley.Proofs.ForestExactness
import Earley.Proofs.ForestGoals
import Earley.Proofs.ForestLimit
import Earley.Proofs.ForestLinks
import Earley.Proofs.ForestRanking
import Earley.Proofs.ForestSearch
import Earley.Proofs.ForestSorting
import Earley.Proofs.ForestSteps
import Earley.Proofs.ForestTermination
import Earley.Proofs.ForestTransparency
import Earley.Proofs.ForestTrees
import Earley.Proofs.ForestUncached
import Earley.Proofs.GridOrder
import Earley.Proofs.Interning
import Earley.Proofs.ItemPenalties
import Earley.Proofs.KeyProperties
import Earley.Proofs.LeastCosts
import Earley.Proofs.Lookups
import Earley.Proofs.Marks
import Earley.Proofs.Mends
import Earley.Proofs.NullTrees
import Earley.Proofs.Nullability
import Earley.Proofs.Outlines
import Earley.Proofs.ParserSafety
import Earley.Proofs.RankOrder
import Earley.Proofs.Reachable
import Earley.Proofs.Recognition
import Earley.Proofs.Refusals
import Earley.Proofs.RepairAcceptance
import Earley.Proofs.RepairOptimality
import Earley.Proofs.RepairReading
import Earley.Proofs.RepairSoundness
import Earley.Proofs.Repricing
import Earley.Proofs.ScanProspects
import Earley.Proofs.SetChoices
import Earley.Proofs.SetFreeGrammars
import Earley.Proofs.Spelling
import Earley.Proofs.Traversals
import Earley.Proofs.Twins
import Earley.Proofs.ViablePrefix
import Earley.Tree.Collapse
import Earley.Tree.Derivation
import Earley.Tree.Outline
import Earley.Tree.Printer
import Earley.Tree.Repair
import Earley.Tree.Traversal
