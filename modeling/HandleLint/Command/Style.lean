import HandleLint.Text.Cut

/-!
# Styled text

Text for a terminal: a style is switched on before the text and everything off after it.
-/

namespace HandleLint.Command

inductive Emphasis
  | bold | dimmed | underline
  deriving DecidableEq, Repr

inductive Ink
  | red | green | yellow | blue | magenta | cyan
  deriving DecidableEq, Repr

structure Style where
  emphasis : Option Emphasis := none
  ink : Option Ink := none
  deriving DecidableEq, Repr

namespace Style

def emphasisCode : Emphasis → String
  | .bold => "1"
  | .dimmed => "2"
  | .underline => "4"

def inkCode : Ink → String
  | .red => "31"
  | .green => "32"
  | .yellow => "33"
  | .blue => "34"
  | .magenta => "35"
  | .cyan => "36"

/-- What switches a style on: its emphasis comes before its ink. -/
def start (s : Style) : String :=
  let codes := (s.emphasis.map emphasisCode).toList ++ (s.ink.map inkCode).toList
  "\x1b[" ++ ";".intercalate codes ++ "m"

/-- What switches every style off. -/
def reset : String :=
  "\x1b[0m"

/-- Text in a style, if styles are shown. Where the text itself switches styles off, the style is
switched on again. -/
def paint (shown : Bool) (s : Style) (text : String) : String :=
  if shown then s.start ++ Text.replaceAll reset (reset ++ s.start) text ++ reset else text

end Style

/-- What decides whether styles are shown. -/
structure ColorChoice where
  /-- The user wants none. -/
  refused : Bool := false
  /-- The user wants them. -/
  forced : Bool := false
  /-- The output goes to a terminal. -/
  terminal : Bool := false
  deriving DecidableEq, Repr

/-- Whether styles are shown: refusing them wins over forcing them. -/
def ColorChoice.shown (c : ColorChoice) : Bool :=
  !c.refused && (c.forced || c.terminal)

end HandleLint.Command
