import SmallC.Text.Properties

/-!
# Visible forms of characters and texts

`visible` shows one character in ASCII, as messages about a bad character do. `quoted` writes a
text between double quotes, as the token listing does; it leaves graphic characters as they are.
-/
namespace SmallC.Text

/-- Lower-case hexadecimal digits of a number. -/
def hex (n : Nat) : String :=
  String.ofList (Nat.toDigits 16 n)

/-- The code point in braces, as in `\u{e9}`. -/
def codePoint (c : Char) : String :=
  "\\u\x7b" ++ hex c.toNat ++ "\x7d"

/-- One character in printable ASCII: the usual backslash forms, or its code point. -/
def visible (c : Char) : String :=
  match c with
  | '\t' => "\\t"
  | '\r' => "\\r"
  | '\n' => "\\n"
  | '\'' => "\\'"
  | '"' => "\\\""
  | '\\' => "\\\\"
  | c => if isPrintableAscii c then c.toString else codePoint c

/-- A character inside a quoted text; a single quote needs no escape there. -/
def quotedChar (c : Char) : String :=
  match c with
  | '\x00' => "\\0"
  | '\t' => "\\t"
  | '\r' => "\\r"
  | '\n' => "\\n"
  | '"' => "\\\""
  | '\\' => "\\\\"
  | c => if isGraphic c then c.toString else codePoint c

def quoted (s : String) : String :=
  "\"" ++ String.join (s.toList.map quotedChar) ++ "\""

end SmallC.Text
