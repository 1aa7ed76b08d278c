import SoapKit.Proofs.Http.Headers

/-!
# Parameters of a content type read back

A content type is a kind and pieces, with a semicolon before each of these. A piece gives a
parameter when it has an equals sign: the name stands before the first one and the value behind it,
with blanks around both, and in double quotes or without.

Looking a parameter up finds the first piece that has its name and the value that this piece gives
it (`Gives.contentTypeParameter_eq`), and nothing where no piece has the name
(`Lacks.contentTypeParameter_eq`).
-/

namespace SoapKit.Http

/-! ## Pieces of content types -/

/-- A content type that is taken apart at its semicolons. -/
structure ContentType where
  kind : String
  pieces : List String
  kind_whole : ';' ∉ kind.toList
  pieces_whole : ∀ piece ∈ pieces, ';' ∉ piece.toList

/-- Whether a piece has a name, with the text behind its equals sign. -/
def Assigns (piece name : String) (text : List Char) : Prop :=
  ∃ key, piece.toList = key ++ '=' :: text ∧ '=' ∉ key ∧
    sameName (String.ofList (Text.trim key)) name

/-- A text that stands for a value: the value with blanks around it, in double quotes or without. -/
def Means (text value : List Char) : Prop :=
  Text.Padded value text ∨ Text.Padded ('"' :: value ++ ['"']) text

namespace ContentType

/-- A content type as it is written. -/
def text (contentType : ContentType) : String :=
  String.ofList (contentType.kind.toList ++
    contentType.pieces.flatMap fun piece => ';' :: piece.toList)

/-- The first piece with a name gives a value. -/
def Gives (contentType : ContentType) (name : String) (value : List Char) : Prop :=
  ∃ before piece after text, contentType.pieces = before ++ piece :: after ∧
    (∀ earlier ∈ before, ∀ text, ¬Assigns earlier name text) ∧ Assigns piece name text ∧
    Means text value

/-- No piece has a name. -/
def Lacks (contentType : ContentType) (name : String) : Prop :=
  ∀ piece ∈ contentType.pieces, ∀ text, ¬Assigns piece name text

theorem pieces_text (contentType : ContentType) :
    Text.pieces ';' contentType.text.toList =
      contentType.kind.toList :: contentType.pieces.map String.toList := by
  obtain ⟨kind, pieces, hkind, hpieces⟩ := contentType
  rw [text, String.toList_ofList]
  dsimp only
  generalize kind.toList = lead at hkind
  induction pieces generalizing lead with
  | nil => simpa using Text.pieces_of_not_mem hkind
  | cons piece rest ih =>
    rw [List.forall_mem_cons] at hpieces
    rw [List.flatMap_cons, List.cons_append, Text.pieces_append _ hkind,
      ih hpieces.2 _ hpieces.1, List.map_cons]

end ContentType

/-! ## Values -/

theorem stopsAt_of_not_mem {c : Char} {s : List Char} (h : c ∉ s) :
    Text.StopsAt (· == c) s :=
  Text.stopsAt_of_forall fun d hd => by simpa using fun heq : d = c => h (heq ▸ hd)

theorem stripAround_of_not_mem {c : Char} {s : List Char} (h : c ∉ s) : stripAround c s = s := by
  have hreverse : c ∉ s.reverse := fun hc => h (List.mem_reverse.1 hc)
  rw [stripAround, Text.dropWhile_of_stopsAt (stopsAt_of_not_mem h),
    Text.dropWhile_of_stopsAt (stopsAt_of_not_mem hreverse), List.reverse_reverse]

theorem stripAround_quoted {c : Char} {s : List Char} (h : c ∉ s) :
    stripAround c (c :: s ++ [c]) = s := by
  cases s with
  | nil => simp [stripAround]
  | cons d rest =>
    have hd : (d == c) = false := stopsAt_of_not_mem h d rfl
    have hmark : ∀ d ∈ [c], (d == c) = true := by simp
    have hstart : (c :: d :: rest ++ [c]).dropWhile (· == c) = d :: rest ++ [c] :=
      Text.dropWhile_span hmark (Text.stopsAt_cons hd)
    have hend : (d :: rest ++ [c]).reverse.dropWhile (· == c) = (d :: rest).reverse := by
      rw [List.reverse_append]
      exact Text.dropWhile_span (by simp) (stopsAt_of_not_mem fun hc => h (List.mem_reverse.1 hc))
    rw [stripAround, hstart, hend, List.reverse_reverse]

/-- What is left of a value in quotes without the blanks and quotes around it is the value. -/
theorem strip_quoted {text value : List Char} (h : Text.Padded ('"' :: value ++ ['"']) text)
    (hquote : '"' ∉ value) : stripAround '"' (Text.trim text) = value := by
  have hquoted : Text.trim ('"' :: value ++ ['"']) = '"' :: value ++ ['"'] := by
    refine Text.trim_eq_of_stopsAt (Text.stopsAt_cons (by decide)) ?_
    rw [List.reverse_concat]
    exact Text.stopsAt_cons (by decide)
  rw [h.trim_eq hquoted, stripAround_quoted hquote]

/-- What is left of a text without the blanks and quotes around it is the value that it means. -/
theorem Means.strip_eq {text value : List Char} (h : Means text value)
    (htrim : Text.trim value = value) (hquote : '"' ∉ value) :
    stripAround '"' (Text.trim text) = value := by
  rcases h with h | h
  · rw [h.trim_eq htrim, stripAround_of_not_mem hquote]
  · exact strip_quoted h hquote

/-! ## Parameters -/

theorem parameterOf_of_assigns {piece name : String} {text : List Char}
    (h : Assigns piece name text) :
    parameterOf name piece.toList = some (String.ofList (stripAround '"' (Text.trim text))) := by
  obtain ⟨key, hpiece, hkey, hname⟩ := h
  rw [parameterOf, hpiece, Text.splitOnce_append _ hkey]
  show (if _ then _ else _) = _
  rw [if_pos hname]

theorem parameterOf_of_not_assigns {piece name : String} (h : ∀ text, ¬Assigns piece name text) :
    parameterOf name piece.toList = none := by
  rw [parameterOf]
  cases hsplit : Text.splitOnce '=' piece.toList with
  | none => rfl
  | some cut =>
    obtain ⟨key, text⟩ := cut
    obtain ⟨hpiece, hkey⟩ := Text.splitOnce_eq_some hsplit
    show (if _ then _ else _) = _
    rw [if_neg fun hname => h text ⟨key, hpiece, hkey, hname⟩]

namespace ContentType

variable {contentType : ContentType} {name : String}

theorem contentTypeParameter_eq (contentType : ContentType) (name : String) :
    contentTypeParameter contentType.text name =
      contentType.pieces.findSome? fun piece => parameterOf name piece.toList := by
  rw [contentTypeParameter, pieces_text, List.drop_one, List.tail_cons, List.findSome?_map]
  rfl

theorem Gives.contentTypeParameter_eq {value : List Char} (h : contentType.Gives name value)
    (htrim : Text.trim value = value) (hquote : '"' ∉ value) :
    contentTypeParameter contentType.text name = some (String.ofList value) := by
  obtain ⟨before, piece, after, text, hpieces, hbefore, hpiece, hmeans⟩ := h
  have hnone : before.findSome? (fun piece => parameterOf name piece.toList) = none :=
    List.findSome?_eq_none_iff.2 fun earlier hearlier =>
      parameterOf_of_not_assigns (hbefore earlier hearlier)
  rw [ContentType.contentTypeParameter_eq, hpieces, List.findSome?_append, hnone, Option.none_or,
    List.findSome?_cons, parameterOf_of_assigns hpiece, hmeans.strip_eq htrim hquote]

theorem Lacks.contentTypeParameter_eq (h : contentType.Lacks name) :
    contentTypeParameter contentType.text name = none := by
  rw [ContentType.contentTypeParameter_eq, List.findSome?_eq_none_iff]
  exact fun piece hpiece => parameterOf_of_not_assigns (h piece hpiece)

end ContentType

end SoapKit.Http
