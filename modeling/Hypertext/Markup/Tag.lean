import Hypertext.Text.Basic

/-! Tag names: which are legal, which are void and which have a constructor of their own. -/

namespace Hypertext.Tag

/-- The elements that have neither content nor a closing tag. -/
def voidTags : List Text :=
  ["area", "base", "br", "col", "embed", "hr", "img", "input", "link", "meta", "param", "source",
   "track", "wbr"].map String.toList

/-- Names are compared exactly, so a name with a capital is not void. -/
def isVoid (tag : Text) : Bool := voidTags.contains tag

def isSmallLetter (c : Char) : Bool := 'a' ≤ c && c ≤ 'z'

/-- A small ASCII letter, then small letters, digits and hyphens. -/
def isLegal : Text → Bool
  | [] => false
  | c :: rest => isSmallLetter c && rest.all fun c => isSmallLetter c || c.isDigit || c == '-'

def standardTags : List Text :=
  ["a", "abbr", "address", "area", "article", "aside", "audio", "b", "base", "bdi", "bdo",
   "blockquote", "body", "br", "button", "canvas", "caption", "cite", "code", "col", "colgroup",
   "data", "datalist", "dd", "del", "details", "dfn", "dialog", "div", "dl", "dt", "em", "embed",
   "fencedframe", "fieldset", "figcaption", "figure", "footer", "form", "h1", "h2", "h3", "h4",
   "h5", "h6", "head", "header", "hgroup", "hr", "html", "i", "iframe", "img", "input", "ins",
   "kbd", "label", "legend", "li", "link", "main", "map", "mark", "menu", "meta", "meter", "nav",
   "noscript", "object", "ol", "optgroup", "option", "output", "p", "picture", "pre", "progress",
   "q", "rp", "rt", "ruby", "s", "samp", "script", "search", "section", "select", "slot", "small",
   "source", "span", "strong", "style", "sub", "summary", "sup", "table", "tbody", "td",
   "template", "textarea", "tfoot", "th", "thead", "time", "title", "tr", "track", "u", "ul",
   "var", "video", "wbr"].map String.toList

end Hypertext.Tag
