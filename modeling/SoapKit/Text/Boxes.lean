/-!
# Boxes

Text that is laid out in lines of limited width. A box holds texts, gaps and other boxes. If a box
fits on the line, together with what cannot be separated from its end, its gaps are blanks;
otherwise they break the line, either all of them or only those whose next piece does not fit. The
outermost box breaks first.

What cannot be separated from a box or from a gap reaches up to the next gap beside it or, when
there is none, beside the box around it.
-/

namespace SoapKit.Text

/-- When a gap breaks the line. -/
inductive GapKind where
  | may
  | must
  | never
  deriving Repr, DecidableEq, Inhabited

/-- A place between texts. When the line is broken there, `shift` is added to the indentation and
`closing` is written before the break, else there are some blanks. -/
structure Gap where
  kind : GapKind
  blanks : Nat
  shift : Int
  closing : String
  deriving Repr, DecidableEq, Inhabited

/-- Whether all gaps of a box break together or one by one. -/
inductive BreakStyle where
  | together
  | single
  deriving Repr, DecidableEq, Inhabited

/-- A piece of text to be laid out. -/
inductive Box where
  | text (s : String)
  | gap (gap : Gap)
  | box (style : BreakStyle) (indent : Int) (content : List Box)
  deriving Inhabited

namespace Box

/-- The width of a line. -/
def lineWidth : Int := 89

/-- The width that a line has at least, however far it is indented. -/
def leastWidth : Int := 60

/-- A width that fits on no line. -/
def endless : Nat := 0xFFFF

/-- The width of a gap that does not break the line. -/
def gapWidth (gap : Gap) : Nat :=
  if gap.kind = .must then endless else gap.blanks

mutual

/-- The width of a piece on one line, in bytes. -/
def width : Box → Nat
  | .text s => s.utf8ByteSize
  | .gap g => gapWidth g
  | .box _ _ content => widths content

def widths : List Box → Nat
  | [] => 0
  | first :: rest => first.width + widths rest

end

/-- The width up to the first gap beside the pieces, where `after` is the width up to the next gap
behind them. -/
def lead (after : Nat) : List Box → Nat
  | [] => after
  | .gap _ :: _ => 0
  | first :: rest => first.width + lead after rest

/-- What is written so far. `blanks` are those that are written only if text follows on the line. -/
structure Page where
  written : List String
  blanks : Nat
  space : Int

def Page.put (page : Page) (s : String) : Page :=
  { written := s :: String.ofList (List.replicate page.blanks ' ') :: page.written
    blanks := 0
    space := page.space - s.utf8ByteSize }

/-- Leaves some blanks. -/
def Page.skip (page : Page) (blanks : Nat) : Page :=
  { page with blanks := page.blanks + blanks, space := page.space - blanks }

/-- Begins a line that is indented. -/
def Page.newLine (page : Page) (indent : Int) : Page :=
  { written := "\n" :: page.written
    blanks := indent.toNat
    space := max (lineWidth - indent) leastWidth }

/-- Whether a gap breaks the line. `style` is that of the box around it, if that box does not fit,
and `tail` is the width up to the next gap. -/
def breaks (style : Option BreakStyle) (gap : Gap) (tail : Nat) (page : Page) : Bool :=
  if gap.kind = .never then false
  else match style with
    | none => false
    | some .together => true
    | some .single => page.space < gapWidth gap + tail

mutual

/-- Lays out a piece that is followed by a text of width `tail` without gaps. -/
def layout (style : Option BreakStyle) (indent : Int) (tail : Nat) : Box → Page → Page
  | .text s, page => page.put s
  | .gap g, page =>
    if breaks style g tail page then
      (if g.closing.isEmpty then page else page.put g.closing).newLine (indent + g.shift)
    else page.skip g.blanks
  | .box inner shift content, page =>
    if page.space < widths content + tail then
      layouts (some inner) (indent + shift) tail content page
    else layouts none indent tail content page

def layouts (style : Option BreakStyle) (indent : Int) (after : Nat) : List Box → Page → Page
  | [], page => page
  | first :: rest, page =>
    layouts style indent after rest (layout style indent (lead after rest) first page)

end

/-- The text of pieces that are laid out one after the other. -/
def render (content : List Box) : String :=
  let page := layouts (some .together) 0 0 content ⟨[], 0, lineWidth⟩
  String.join page.written.reverse

end Box

end SoapKit.Text
