/-
PagePreview.Html.Markup — HTML as a tree, and its text.

A tree is made of texts, of elements with content, and of elements that
never have content. Only writing knows about angle brackets, quotes and
entities: whatever a text or the value of an attribute is, it cannot end
the place it stands in. Tags and names of attributes are written as they
are, so they have to be plain words.

* `Markup.write` — the text of a tree.
* `Markup.writeAll` — the texts of trees, one after the other.
-/
import PagePreview.Text.Escape

namespace PagePreview

namespace Html

structure Attribute where
  name : String
  value : String
  deriving Repr, DecidableEq

/-- HTML as a tree. -/
inductive Markup
  /-- A text. -/
  | text (s : String)
  /-- An element and its content. -/
  | element (tag : String) (attributes : List Attribute) (content : List Markup)
  /-- An element that never has content. -/
  | void (tag : String) (attributes : List Attribute)
  deriving Repr

/-- An attribute with its value, after a space. -/
def Attribute.write (a : Attribute) : List Char :=
  ' ' :: a.name.toList ++ ['=', '"'] ++ a.value.toList.flatMap attributeChar ++ ['"']

namespace Markup

/-- The start of a tag. -/
def writeTag (tag : String) (attributes : List Attribute) : List Char :=
  '<' :: tag.toList ++ attributes.flatMap Attribute.write

def writeEnd (tag : String) : List Char :=
  '<' :: '/' :: tag.toList ++ ['>']

mutual

def write : Markup → List Char
  | text s => s.toList.flatMap htmlChar
  | element tag attributes content =>
    writeTag tag attributes ++ '>' :: (writeAll content ++ writeEnd tag)
  | void tag attributes => writeTag tag attributes ++ [' ', '/', '>']

/-- The texts of trees, one after the other. -/
def writeAll : List Markup → List Char
  | [] => []
  | m :: rest => write m ++ writeAll rest

end

def render (ms : List Markup) : String :=
  String.ofList (writeAll ms)

end Markup

end Html

end PagePreview
