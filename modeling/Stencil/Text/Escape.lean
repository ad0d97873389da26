import Stencil.Text.GraphemeExtend
import Stencil.Text.Printable
/-!
# Escaped text

Text as it is shown on one line: controls, quotes and backslashes are escaped,
characters that cannot be shown are given by code point, and so is a mark that
would join what stands in front of the text.
-/

namespace Stencil

def hexDigits (n : Nat) : String := String.ofList (Nat.toDigits 16 n)

def escapeChar (atStart : Bool) (c : Char) : String :=
  match c with
  | '\x00' => "\\0"
  | '\t' => "\\t"
  | '\r' => "\\r"
  | '\n' => "\\n"
  | '"' => "\\\""
  | '\'' => "\\'"
  | '\\' => "\\\\"
  | c =>
    if (atStart && isGraphemeExtend c) || !isPrintable c then
      "\\u\x7b" ++ hexDigits c.toNat ++ "\x7d"
    else c.toString

def escapeText (text : String) : String :=
  match text.toList with
  | [] => ""
  | c :: cs => String.join (escapeChar true c :: cs.map (escapeChar false))

end Stencil
