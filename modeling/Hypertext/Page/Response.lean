import Hypertext.Markup.Chunks
import Hypertext.Markup.Draft
import Hypertext.Style.Css

/-! Response bodies: whatever has a body is sent with the content type of its text. -/

namespace Hypertext

inductive ContentType where
  | html
  | css
  deriving DecidableEq, Repr

def ContentType.toText : ContentType → Text
  | .html => "text/html".toList
  | .css => "text/css".toList

structure Response where
  contentType : ContentType
  body : Text
  deriving DecidableEq, Repr

inductive ResponseError where
  | shape (error : ShapeError)
  | number (error : UnwritableNumber)
  | style (error : StyleError)
  deriving DecidableEq, Repr

def ResponseError.message : ResponseError → Text
  | .shape error => error.message
  | .number error => error.message
  | .style error => error.message

class ToResponse (α : Type) where
  contentType : ContentType
  body : α → Except ResponseError Text

def respond {α : Type} [ToResponse α] (a : α) : Except ResponseError Response :=
  (ToResponse.body a).map fun body => ⟨ToResponse.contentType α, body⟩

instance : ToResponse Element where
  contentType := .html
  body e := e.render.mapError .number

instance : ToResponse Sheet where
  contentType := .css
  body s := .ok (s.toCss Sheet.defaultIndent)

end Hypertext
