import Hypertext.Markup.Draft

/-! Links to classless style sheets that are served to everyone. -/

namespace Hypertext

inductive SakuraTheme where
  | darkSolarized
  | dark
  | earthly
  | ink
  | pink
  | radical
  | vader
  deriving DecidableEq, Repr

inductive Preset where
  | mvp
  | sakura (theme : Option SakuraTheme)
  | simple
  | tacit
  | pico
  deriving DecidableEq, Repr

def SakuraTheme.fileName : SakuraTheme → String
  | .darkSolarized => "dark-solarized"
  | .dark => "dark"
  | .earthly => "earthly"
  | .ink => "ink"
  | .pink => "pink"
  | .radical => "radical"
  | .vader => "vader"

namespace Preset

def address : Preset → String
  | .mvp => "https://unpkg.com/mvp.css"
  | .sakura none => "https://unpkg.com/sakura.css/css/sakura.css"
  | .sakura (some theme) =>
      "https://unpkg.com/sakura.css/css/sakura-" ++ theme.fileName ++ ".css"
  | .simple => "https://cdn.simplecss.org/simple.min.css"
  | .tacit =>
      "https://cdn.jsdelivr.net/gh/yegor256/tacit@gh-pages/tacit-css-1.8.1.min.css"
  | .pico => "https://cdn.jsdelivr.net/npm/@picocss/pico@2/css/pico.min.css"

def link (p : Preset) : Except ShapeError Element :=
  Draft.toElement
    { tag := "link".toList,
      attributes := [("rel".toList, .text "stylesheet".toList),
        ("href".toList, .text p.address.toList)] }

end Preset

end Hypertext
