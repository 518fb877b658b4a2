import GherkinIndex.Report.Document
import GherkinIndex.Report.Markup
import GherkinIndex.Report.Outline

/-! The text of a report in each format and view. -/

namespace GherkinIndex.Report

/-- The view by tag leaves the failures out. -/
def render (format : Format) (view : View) (r : Report) : Text :=
  match format, view with
  | .text, .feature => unlines r.featureLines
  | .text, .tag => unlines (tagLines (TagIndex.build r.features))
  | .json, .feature => r.featureDocument.pretty
  | .json, .tag => (tagDocument (TagIndex.build r.features)).pretty
  | .xml, .feature => Xml.document r.featureMarkup
  | .xml, .tag => Xml.document (tagMarkup (TagIndex.build r.features))

/-- The bytes that a text takes in UTF-8. -/
def byteCount (t : Text) : Nat := t.foldr (fun c n => c.utf8Size + n) 0

/-- The text of a report that has to fit into `capacity` bytes. -/
def renderWithin (capacity : Nat) (format : Format) (view : View) (r : Report) : Option Text :=
  let out := r.render format view
  if byteCount out ≤ capacity then some out else none

end GherkinIndex.Report
