import GherkinIndex.Text.Basic

/-! Lines of a text.

    A text is cut after each line feed. The line itself leaves out that feed and one carriage return
    right before it, so both line ends read alike; a carriage return anywhere else is ordinary.

        "a\r\n" ++ "b\n" ++ "c\r"   pieces
         a          b       c\r     lines   -- a final feed opens no further line -/

namespace GherkinIndex.Text

/-- The text cut after every line feed; concatenated, the pieces give the text back. -/
def pieces : Text → List Text
  | [] => []
  | c :: t =>
    if c = '\n' then ['\n'] :: pieces t
    else match pieces t with
      | [] => [[c]]
      | p :: ps => (c :: p) :: ps

/-- A piece without its line end. -/
def withoutEnd : Text → Text
  | [] => []
  | ['\n'] => []
  | ['\r', '\n'] => []
  | c :: t => c :: withoutEnd t

def lines (t : Text) : List Text := (pieces t).map withoutEnd

end GherkinIndex.Text
