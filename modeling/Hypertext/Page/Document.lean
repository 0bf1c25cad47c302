import Hypertext.Markup.Head
import Hypertext.Page.Response

/-! Documents: a root element after a document type. -/

namespace Hypertext

structure Document where
  root : Element

namespace Document

def doctype : Text := "<!DOCTYPE html>".toList

def addToHead (d : Document) (items : List Node) : Except ShapeError Document :=
  (d.root.addToHead items).map Document.mk

/-- The document type is the first chunk, but a root without a text has no chunk at all. -/
def chunks (d : Document) : Except UnwritableNumber (List Text) :=
  d.root.chunks.map fun chunks => doctype :: chunks.toList

def render (d : Document) : Except UnwritableNumber Text := d.chunks.map List.flatten

instance : ToResponse Document where
  contentType := .html
  body d := d.render.mapError .number

end Document

end Hypertext
