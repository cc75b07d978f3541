import WebArchive.Bytes
import WebArchive.Text.Basic
import WebArchive.Text.Visible

/-!
Quoted text in diagnostics and log lines: quotes around it, a backslash in front of quotes and
backslashes, short escapes for common controls, and the code point of what cannot be shown. The
name of a file has a backslash in front of apostrophes, too.
-/
namespace WebArchive.Text

/-- A code point in braces, in the fewest small hexadecimal digits. -/
def codePoint (c : Char) : Text :=
  ['\\', 'u', '{'] ++ Nat.toDigits 16 c.toNat ++ ['}']

def quotedChar : Char → Text
  | '"' => ['\\', '"']
  | '\\' => ['\\', '\\']
  | '\n' => ['\\', 'n']
  | '\r' => ['\\', 'r']
  | '\t' => ['\\', 't']
  | '\x00' => ['\\', '0']
  | c => if isVisible c then [c] else codePoint c

def quoted (t : Text) : Text := '"' :: t.flatMap quotedChar ++ ['"']

def quotedFileChar (c : Char) : Text := if c = '\x27' then ['\\', c] else quotedChar c

def quotedFile (t : Text) : Text := '"' :: t.flatMap quotedFileChar ++ ['"']

end WebArchive.Text
