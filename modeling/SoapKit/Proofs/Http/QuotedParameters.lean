import SoapKit.Proofs.Http.Parameters
import SoapKit.Proofs.Text.Letters

/-!
# Parameters in double quotes

A header is written from a kind and parameters, whose names are tokens and whose values stand in
double quotes. What is asked for is the value of the first parameter of a name
(`QuotedParameter.lookup`).

**Theorem (`contentTypeParameter_written`).** The lookup gives that value as long as no value up to
it has a semicolon in it. When no two parameters have the same name, it is right for every name
exactly if there is no semicolon in any value.

A semicolon ends a piece also where it is quoted. The value that it stands in is cut short there,
and what follows it in the value is read as a parameter of its own
(`contentTypeParameter_of_semicolon`).
-/

namespace SoapKit

namespace Text

/-! ## Pieces of a longer text -/

/-- A text with a mark behind it has its pieces before those of what follows the mark. -/
theorem pieces_append_mark (mark : Char) (s rest : List Char) :
    pieces mark (s ++ mark :: rest) = pieces mark s ++ pieces mark rest := by
  induction s with
  | nil => exact pieces_append rest (List.not_mem_nil (a := mark))
  | cons c more ih =>
    rw [List.cons_append, pieces, pieces]
    by_cases hc : c = mark
    · rw [if_pos hc, if_pos hc, ih, List.cons_append]
    · rw [if_neg hc, if_neg hc, ih]
      cases hmore : pieces mark more with
      | nil => exact absurd hmore (pieces_ne_nil mark more)
      | cons first others => rfl

/-- No piece has the mark in it. -/
theorem not_mem_of_mem_pieces {mark : Char} {s piece : List Char} (h : piece ∈ pieces mark s) :
    mark ∉ piece := by
  induction s generalizing piece with
  | nil =>
    rw [pieces, List.mem_singleton] at h
    simp [h]
  | cons c rest ih =>
    rw [pieces] at h
    split at h
    · rcases List.mem_cons.1 h with rfl | h
      · exact List.not_mem_nil
      · exact ih h
    · next hc =>
      split at h
      · rw [List.mem_singleton.1 h, List.mem_singleton]
        exact Ne.symm hc
      · next first others heq =>
        rw [heq] at ih
        rcases List.mem_cons.1 h with rfl | h
        · rw [List.mem_cons, not_or]
          exact ⟨Ne.symm hc, ih List.mem_cons_self⟩
        · exact ih (List.mem_cons_of_mem _ h)

end Text

namespace Http

/-! ## Written parameters -/

/-- The characters of tokens: letters, digits, and the marks that separate nothing. -/
def isTokenChar (c : Char) : Bool :=
  c.isAlphanum || "!#$%&'*+-.^_`|~".toList.contains c

/-- A parameter that is written with its value in double quotes. -/
structure QuotedParameter where
  name : String
  value : String
  name_token : name.toList ≠ [] ∧ ∀ c ∈ name.toList, isTokenChar c = true
  value_plain : '"' ∉ value.toList ∧ '\\' ∉ value.toList

namespace QuotedParameter

/-- A parameter as it is written. -/
def text (p : QuotedParameter) : String :=
  p.name ++ "=\"" ++ p.value ++ "\""

/-- A header with parameters as it is written. -/
def header (kind : String) (params : List QuotedParameter) : String :=
  params.foldl (fun written p => written ++ "; " ++ p.text) kind

/-- The value of the first parameter of a name, in which the case of letters does not matter. -/
def lookup (params : List QuotedParameter) (name : String) : Option String :=
  (params.find? fun p => sameName p.name name).map (·.value)

/-- The parameters up to the first one of a name, and all of them when there is none. -/
def reached (params : List QuotedParameter) (name : String) : List QuotedParameter :=
  params.take (params.findIdx (fun p => sameName p.name name) + 1)

theorem toList_header (kind : String) (params : List QuotedParameter) :
    (header kind params).toList =
      kind.toList ++ params.flatMap fun p => ';' :: ' ' :: p.text.toList := by
  induction params generalizing kind with
  | nil => simp [header]
  | cons p rest ih =>
    have hstep : header kind (p :: rest) = header (kind ++ "; " ++ p.text) rest := rfl
    rw [hstep, ih, List.flatMap_cons, String.toList_append, String.toList_append,
      show "; ".toList = [';', ' '] from rfl]
    simp only [List.append_assoc, List.cons_append, List.nil_append]

/-! ## Names -/

theorem lt_of_isTokenChar {c : Char} (h : isTokenChar c = true) : c.toNat < 128 := by
  rw [isTokenChar, Bool.or_eq_true] at h
  rcases h with h | h
  · exact Text.toNat_lt_of_isAlphanum h
  · have hall : "!#$%&'*+-.^_`|~".toList.all (fun c => c.toNat < 128) = true := by decide
    exact of_decide_eq_true (List.all_eq_true.1 hall c (List.contains_iff_mem.1 h))

/-- What a token is made of neither is blank nor separates names and values. -/
theorem of_isTokenChar {c : Char} (h : isTokenChar c = true) :
    Text.isBlank c = false ∧ c ≠ '=' ∧ c ≠ ';' := by
  have hall : ∀ n < 128, isTokenChar (Char.ofNat n) = true →
      Text.isBlank (Char.ofNat n) = false ∧ Char.ofNat n ≠ '=' ∧ Char.ofNat n ≠ ';' := by
    decide
  have hc := hall c.toNat (lt_of_isTokenChar h)
  rw [Char.ofNat_toNat] at hc
  exact hc h

variable (p : QuotedParameter)

/-- A written parameter assigns its name, and a value in quotes. -/
theorem assigns_iff {piece name : String} (hpiece : piece.toList = ' ' :: p.text.toList)
    {text : List Char} : Assigns piece name text ↔
      sameName p.name name ∧ text = '"' :: p.value.toList ++ ['"'] := by
  have hname : '=' ∉ ' ' :: p.name.toList := by
    rw [List.mem_cons, not_or]
    exact ⟨by decide, fun hmem => (of_isTokenChar (p.name_token.2 _ hmem)).2.1 rfl⟩
  have hcut : piece.toList = (' ' :: p.name.toList) ++ '=' :: ('"' :: p.value.toList ++ ['"']) := by
    rw [hpiece, QuotedParameter.text]
    simp
  have htrim : String.ofList (Text.trim (' ' :: p.name.toList)) = p.name := by
    have hpadded : Text.Padded p.name.toList (' ' :: p.name.toList) :=
      ⟨[' '], [], List.forall_mem_singleton.2 (by decide), by simp, by simp⟩
    rw [hpadded.trim_eq, String.ofList_toList]
    exact Text.trim_eq_self fun c hc => (of_isTokenChar (p.name_token.2 c hc)).1
  constructor
  · rintro ⟨key, hkey, hfree, hsame⟩
    have hsplit := (Text.splitOnce_append text hfree).symm.trans
      (hkey ▸ hcut ▸ Text.splitOnce_append _ hname)
    cases hsplit
    exact ⟨htrim ▸ hsame, rfl⟩
  · rintro ⟨hsame, rfl⟩
    exact ⟨_, hcut, hname, htrim.symm ▸ hsame⟩

/-- What a written parameter gives for a name: the first of its pieces that assigns the name. -/
def found (name : String) : Option String :=
  (Text.pieces ';' (' ' :: p.text.toList)).findSome? (parameterOf name)

theorem found_eq (name : String) (h : ';' ∉ p.value.toList) :
    p.found name = if sameName p.name name then some p.value else none := by
  have hwhole : ';' ∉ ' ' :: p.text.toList := by
    have hname : ';' ∉ p.name.toList := fun hmem =>
      (of_isTokenChar (p.name_token.2 _ hmem)).2.2 rfl
    rw [text]
    simp [hname, h]
  have hpiece : (String.ofList (' ' :: p.text.toList)).toList = ' ' :: p.text.toList :=
    String.toList_ofList
  rw [found, Text.pieces_of_not_mem hwhole, List.findSome?_singleton]
  split
  · next hsame =>
    have hassigns := (p.assigns_iff hpiece).2 ⟨hsame, rfl⟩
    rw [← hpiece, parameterOf_of_assigns hassigns]
    rw [strip_quoted ⟨[], [], by simp, by simp, by simp⟩ p.value_plain.1, String.ofList_toList]
  · next hother =>
    rw [← hpiece]
    exact parameterOf_of_not_assigns fun text hassigns =>
      hother ((p.assigns_iff hpiece).1 hassigns).1

/-! ## Looking parameters up -/

variable {kind : String} {params : List QuotedParameter}

/-- What is found in a header is what the first of its parameters gives for the name that gives
anything. -/
theorem contentTypeParameter_header (hkind : ';' ∉ kind.toList) (params : List QuotedParameter)
    (name : String) : contentTypeParameter (header kind params) name =
      params.findSome? (·.found name) := by
  have hpieces : Text.pieces ';' (header kind params).toList = kind.toList ::
      params.flatMap fun p => Text.pieces ';' (' ' :: p.text.toList) := by
    rw [toList_header]
    generalize kind.toList = lead at hkind
    rw [← List.singleton_append, ← Text.pieces_of_not_mem hkind]
    clear hkind
    induction params generalizing lead with
    | nil => simp
    | cons p rest ih =>
      rw [List.flatMap_cons, List.flatMap_cons, List.cons_append, Text.pieces_append_mark, ih]
  rw [contentTypeParameter, hpieces, List.drop_one, List.tail_cons]
  clear hpieces
  induction params with
  | nil => rfl
  | cons p rest ih =>
    rw [List.flatMap_cons, List.findSome?_append, List.findSome?_cons, ih, found]
    cases (Text.pieces ';' (' ' :: p.text.toList)).findSome? (parameterOf name) <;> rfl

theorem mem_of_mem_dropEnds {q : Char → Bool} {c : Char} {s : List Char}
    (h : c ∈ ((s.dropWhile q).reverse.dropWhile q).reverse) : c ∈ s := by
  have hend := (List.dropWhile_sublist q).subset (List.mem_reverse.1 h)
  exact (List.dropWhile_sublist q).subset (List.mem_reverse.1 hend)

/-- A value that is found has no semicolon in it. -/
theorem not_mem_of_found {name value : String} (h : p.found name = some value) :
    ';' ∉ value.toList := by
  obtain ⟨piece, hpiece, hvalue⟩ := List.exists_of_findSome?_eq_some h
  have hfree := Text.not_mem_of_mem_pieces hpiece
  rw [parameterOf] at hvalue
  obtain ⟨⟨key, text⟩, hcut, hvalue⟩ := Option.bind_eq_some_iff.1 hvalue
  dsimp only at hvalue
  split at hvalue
  · cases hvalue
    rw [String.toList_ofList]
    intro hmem
    have htext : ';' ∈ text := mem_of_mem_dropEnds (mem_of_mem_dropEnds hmem)
    refine hfree ?_
    rw [(Text.splitOnce_eq_some hcut).1]
    exact List.mem_append_right _ (List.mem_cons_of_mem _ htext)
  · cases hvalue

theorem lookup_cons (p : QuotedParameter) (rest : List QuotedParameter) (name : String) :
    lookup (p :: rest) name = if sameName p.name name then some p.value else lookup rest name := by
  rw [lookup, List.find?_cons]
  cases sameName p.name name <;> rfl

/-- Where no semicolon is reached, what is found is what is asked for. -/
theorem findSome?_found {name : String} (h : ∀ p ∈ reached params name, ';' ∉ p.value.toList) :
    params.findSome? (·.found name) = lookup params name := by
  induction params with
  | nil => rfl
  | cons p rest ih =>
    rw [reached, List.findIdx_cons] at h
    rw [lookup_cons, List.findSome?_cons, p.found_eq name (h p (by simp))]
    cases hsame : sameName p.name name with
    | true => rfl
    | false =>
      refine ih fun q hq => h q ?_
      rw [hsame]
      exact List.mem_cons_of_mem _ hq

/-- A parameter is the first one of its name when no two have the same. -/
theorem lookup_of_mem (h : params.Pairwise fun p q => ¬ sameName p.name q.name)
    {p : QuotedParameter} (hp : p ∈ params) : lookup params p.name = some p.value := by
  induction params with
  | nil => cases hp
  | cons first rest ih =>
    obtain ⟨hfirst, hrest⟩ := List.pairwise_cons.1 h
    rw [lookup_cons]
    rcases List.mem_cons.1 hp with rfl | hp
    · exact if_pos (beq_self_eq_true _)
    · rw [if_neg (hfirst p hp), ih hrest hp]

/-- Where no semicolon stands in a value up to the first parameter of a name, the value of that one
is found for the name. When no two parameters have the same name, the right value is found for every
name exactly if no value has a semicolon in it. -/
theorem contentTypeParameter_written (hkind : ';' ∉ kind.toList) (params : List QuotedParameter) :
    (∀ name, (∀ p ∈ reached params name, ';' ∉ p.value.toList) →
      contentTypeParameter (header kind params) name = lookup params name) ∧
    (params.Pairwise (fun p q => ¬ sameName p.name q.name) →
      ((∀ name, contentTypeParameter (header kind params) name = lookup params name) ↔
        ∀ p ∈ params, ';' ∉ p.value.toList)) := by
  have hreached : ∀ name, (∀ p ∈ reached params name, ';' ∉ p.value.toList) →
      contentTypeParameter (header kind params) name = lookup params name := by
    intro name h
    rw [contentTypeParameter_header hkind, findSome?_found h]
  refine ⟨hreached, fun hnames => ⟨fun hall p hp => ?_, fun hfree name => ?_⟩⟩
  · have hvalue := hall p.name
    rw [contentTypeParameter_header hkind, lookup_of_mem hnames hp] at hvalue
    obtain ⟨q, -, hfound⟩ := List.exists_of_findSome?_eq_some hvalue
    exact q.not_mem_of_found hfound
  · exact hreached name fun p hp => hfree p (List.mem_of_mem_take hp)

/-- Two parameters, the first of which has an equals sign and blanks in its value. -/
def plainParameters : List QuotedParameter :=
  [⟨"Start", " id=1 ", ⟨by decide, List.all_eq_true.1 (by decide)⟩, by decide⟩,
    ⟨"boundary", "b", ⟨by decide, List.all_eq_true.1 (by decide)⟩, by decide⟩]

/-- Values are found whatever the case of names is, with the blanks in them. -/
theorem contentTypeParameter_of_plain :
    ';' ∉ "multipart/related".toList ∧
      plainParameters.Pairwise (fun p q => ¬ sameName p.name q.name) ∧
      (∀ p ∈ plainParameters, ';' ∉ p.value.toList) ∧
      (∀ name, contentTypeParameter (header "multipart/related" plainParameters) name =
        lookup plainParameters name) ∧
      lookup plainParameters "start" = some " id=1 " := by
  have hkind : ';' ∉ "multipart/related".toList := by decide
  have hnames : plainParameters.Pairwise (fun p q => ¬ sameName p.name q.name) := by decide
  have hfree : ∀ p ∈ plainParameters, ';' ∉ p.value.toList := by decide
  have hright := ((contentTypeParameter_written hkind plainParameters).2 hnames).2 hfree
  exact ⟨hkind, hnames, hfree, hright, by decide⟩

/-- Two parameters, the first of which has a semicolon in its value, and behind it what could be
another one. -/
def quotedSemicolon : List QuotedParameter :=
  [⟨"start", "a;boundary=x", ⟨by decide, List.all_eq_true.1 (by decide)⟩, by decide⟩,
    ⟨"boundary", "b", ⟨by decide, List.all_eq_true.1 (by decide)⟩, by decide⟩]

/-- A value is cut short at a semicolon in it, and the value of another parameter is taken from
behind it. -/
theorem contentTypeParameter_of_semicolon :
    lookup quotedSemicolon "start" = some "a;boundary=x" ∧
      contentTypeParameter (header "multipart/related" quotedSemicolon) "start" = some "a" ∧
      lookup quotedSemicolon "boundary" = some "b" ∧
      contentTypeParameter (header "multipart/related" quotedSemicolon) "boundary" = some "x" := by
  decide

end QuotedParameter

end Http

end SoapKit
