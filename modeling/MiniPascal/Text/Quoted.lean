/-!
# Quoted text

A text as the assembler reads it back: in double quotes, with quotes,
backslashes, line feeds and tabs escaped.
-/

namespace MiniPascal.Text

/-- A character inside the quotes. -/
def escape : Char → List Char
  | '"' => ['\\', '"']
  | '\\' => ['\\', '\\']
  | '\n' => ['\\', 'n']
  | '\t' => ['\\', 't']
  | c => [c]

def quote (text : String) : String :=
  String.ofList ('"' :: text.toList.flatMap escape ++ ['"'])

end MiniPascal.Text
