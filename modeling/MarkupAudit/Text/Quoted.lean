import MarkupAudit.Text.CodePoint
import MarkupAudit.Text.Hidden

/-!
Text in double quotes, written so that it can be told by sight. The quote and the backslash are
escaped, and every hidden character is given by its code point.
-/

namespace MarkupAudit.Text

def escapeVisibly (c : Char) : List Char :=
  if c = '"' then ['\\', '"']
  else if c = '\\' then ['\\', '\\']
  else if c = '\n' then ['\\', 'n']
  else if c = '\r' then ['\\', 'r']
  else if c = '\t' then ['\\', 't']
  else if c = '\x00' then ['\\', '0']
  else if isHidden c then bracedCodePoint c
  else [c]

def quoted (text : List Char) : List Char := '"' :: text.flatMap escapeVisibly ++ ['"']

end MarkupAudit.Text
