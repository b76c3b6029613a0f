import ParamsWrap.CommandLine.Escape

/-!
# Styled text

Messages are made of phrases, each in one style. Where colours are wanted a phrase stands between the
escapes of its style and the escape that ends it. Where they are not, a message is written without
any escapes, those that it quotes among them.
-/

namespace ParamsWrap

inductive Style where
  | plain
  | bold
  | heading
  | red
  | green
  | yellow
  | alarm
deriving DecidableEq

/-- The numbers of the terminal's attributes, in the order in which they are switched on. -/
def Style.attributes : Style → List String
  | plain => []
  | bold => ["1"]
  | heading => ["1", "4"]
  | red => ["31"]
  | green => ["32"]
  | yellow => ["33"]
  | alarm => ["1", "31"]

def Style.on (s : Style) : String :=
  String.join (s.attributes.map fun n => "\x1b[" ++ n ++ "m")

structure Phrase where
  style : Style
  text : String
deriving DecidableEq

namespace Phrase

def plain (text : String) : Phrase := ⟨.plain, text⟩

def bold (text : String) : Phrase := ⟨.bold, text⟩

def heading (text : String) : Phrase := ⟨.heading, text⟩

def red (text : String) : Phrase := ⟨.red, text⟩

def green (text : String) : Phrase := ⟨.green, text⟩

def yellow (text : String) : Phrase := ⟨.yellow, text⟩

def alarm (text : String) : Phrase := ⟨.alarm, text⟩

def render (colour : Bool) (s : Phrase) : String :=
  if colour && s.style ≠ .plain then s.style.on ++ s.text ++ "\x1b[0m" else s.text

end Phrase

abbrev Styled := List Phrase

def Styled.render (colour : Bool) (phrases : Styled) : String :=
  let text := String.join (phrases.map (Phrase.render true))
  if colour then text else String.ofList (Text.unescaped text.toList)

structure Palette where
  marks : Bool
  messages : Bool
deriving DecidableEq

/-- Outputs are taken for pipes, so that nothing is coloured unless colour is forced. Marks are by any
value but `0`. Messages are by any value but the empty one, unless no colour is asked for. -/
def Palette.ofEnvironment (force? noColour? : Option String) : Palette where
  marks := force?.any (· ≠ "0")
  messages := force?.any (· ≠ "") && noColour?.all (· = "")

end ParamsWrap
