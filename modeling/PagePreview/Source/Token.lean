/-
PagePreview.Source.Token — the words of a page description.

* `Lexeme` — an identifier, a string literal or a single punctuation
  character. The end of the input is no lexeme: a reading that has run
  out of tokens is at the end.
* `Token` — a lexeme with the range of bytes it was written in.
-/
import PagePreview.Text.Position

namespace PagePreview

/-- What one word of a page description says. -/
inductive Lexeme
  /-- A name: a letter or underscore, then letters, digits and underscores. -/
  | ident (name : String)
  /-- A quoted text, with its escapes resolved. -/
  | str (text : String)
  /-- Any other single character. -/
  | punct (c : Char)
  deriving Repr, DecidableEq

/-- A lexeme and where it stands in the source. -/
structure Token where
  lexeme : Lexeme
  span : Span
  deriving Repr, DecidableEq

def Token.isPunct (t : Token) (c : Char) : Bool :=
  t.lexeme == .punct c

def Token.text? (t : Token) : Option String :=
  match t.lexeme with
  | .str text => some text
  | _ => none

end PagePreview
