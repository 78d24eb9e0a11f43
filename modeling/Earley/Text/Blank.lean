import Earley.Text.CodeSet

/-!
# Blank characters

The white-space characters, line and paragraph separators among them.
-/

namespace Earley.Text

set_option maxRecDepth 10000 in
def blank : CodeSet := .ofBoundaries
  #[0x9, 0xe, 0x20, 0x21, 0x85, 0x86, 0xa0, 0xa1, 0x1680, 0x1681, 0x2000, 0x200b, 0x2028, 0x202a,
  0x202f, 0x2030, 0x205f, 0x2060, 0x3000, 0x3001]

end Earley.Text
