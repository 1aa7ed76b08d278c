import SoapKit.Proofs.Xml.Agreement.Alike
import SoapKit.Proofs.Xml.Building

/-!
# Character data in pieces

An assembly looks at every piece of character data by itself: it drops a blank one, and puts another
one behind the run that ends there.

**Theorem (`addText_pieces`).** Inside of an open element, pieces that come one after the other do
what the pieces that are not blank do together. So they do what all of them do together exactly if
no piece is a blank that holds something (`addText_pieces_differ`).

What an assembly shows determines it (`Shows.unique`), so the assemblies are compared by their
trees, and these by the run of character data that they end with (`Shows.lastText?_addText`).
-/

namespace SoapKit.Xml

open SoapKit.Xml.Tree

/-! ## What is kept of pieces -/

theorem Tree.length_keptData_le (pieces : List (List Char)) :
    (keptData pieces).length ≤ pieces.flatten.length := by
  induction pieces with
  | nil => rfl
  | cons piece rest ih =>
    rw [List.flatten_cons, List.length_append]
    cases hblank : piece.all Text.isBlank with
    | true =>
      rw [keptData_cons_of_blank hblank]
      omega
    | false =>
      rw [keptData_cons_of_not_blank hblank, List.length_append]
      omega

/-- Everything is kept if nothing but empty pieces is blank. -/
theorem Tree.keptData_eq_flatten_iff {pieces : List (List Char)} :
    keptData pieces = pieces.flatten ↔
      ∀ piece ∈ pieces, piece.all Text.isBlank = true → piece = [] := by
  induction pieces with
  | nil => simp [keptData]
  | cons piece rest ih =>
    rw [List.forall_mem_cons, ← ih, List.flatten_cons]
    cases hblank : piece.all Text.isBlank with
    | false => simp [keptData_cons_of_not_blank hblank]
    | true =>
      rw [keptData_cons_of_blank hblank]
      constructor
      · intro h
        have hlength := congrArg List.length h
        have hle := length_keptData_le rest
        rw [List.length_append] at hlength
        obtain rfl : piece = [] := List.length_eq_zero_iff.1 (by omega)
        exact ⟨fun _ => rfl, h⟩
      · rintro ⟨hempty, h⟩
        rw [hempty rfl, h, List.nil_append]

/-- What can be seen in the pieces can be seen in what is kept of them. -/
theorem Tree.all_isBlank_keptData (pieces : List (List Char)) :
    (keptData pieces).all Text.isBlank = pieces.flatten.all Text.isBlank := by
  induction pieces with
  | nil => rfl
  | cons piece rest ih =>
    cases hblank : piece.all Text.isBlank with
    | true => rw [keptData_cons_of_blank hblank, List.flatten_cons, List.all_append, hblank, ih,
        Bool.true_and]
    | false => rw [keptData_cons_of_not_blank hblank, List.flatten_cons, List.all_append,
        List.all_append, hblank, Bool.false_and, Bool.false_and]

/-! ## The run at the end -/

/-- The character data that a forest ends with. -/
def Tree.lastData (forest : List Tree) : String :=
  match forest.getLast? with
  | some (.text data) => data
  | _ => ""

namespace Assembly

variable {a b : Assembly} {frames : List Frame} {done : List Tree}

/-- An assembly is determined by what it shows. -/
theorem Shows.unique (ha : a.Shows frames done) (hb : b.Shows frames done) : a = b := by
  obtain ⟨entries, openPlaces, scopes, hasRoot⟩ := a
  obtain ⟨entries', openPlaces', scopes', hasRoot'⟩ := b
  have hentries : entries = entries' := Array.toList_inj.1 (ha.table.trans hb.table.symm)
  have hplaces : openPlaces = openPlaces' := ha.places.trans hb.places.symm
  have hscopes : scopes = scopes' := ha.scopes.trans hb.scopes.symm
  have hroot : hasRoot = hasRoot' := ha.root.trans hb.root.symm
  rw [hentries, hplaces, hscopes, hroot]

/-- Character data ends up behind the run that was at the end before. -/
theorem Shows.lastText?_addText {data : String} (h : a.Shows frames (Tree.addText done data)) :
    (a.lastText? a.current).map (·.2) = some (lastData done ++ data) := by
  rw [h.lastText?]
  rcases List.eq_nil_or_concat done with rfl | ⟨init, t, rfl⟩
  · simp [Tree.addText, lastData]
  · rw [List.concat_eq_append]
    cases t <;> simp [Tree.addText, lastData]

/-! ## Adding pieces -/

theorem Shows.exists_addText (h : a.Shows frames done) (hframes : frames ≠ []) (data : String) :
    ∃ b, a.addText data = .ok b ∧ b.Shows frames (Tree.addData done data.toList) := by
  cases hblank : Text.isAllBlank data with
  | true =>
    have hkeep : Tree.addData done data.toList = done := if_pos hblank
    exact ⟨a, addText_blank hblank, by rwa [hkeep]⟩
  | false =>
    have hadd : Tree.addData done data.toList = Tree.addText done data := by
      rw [Tree.addData, show data.toList.all Text.isBlank = false from hblank,
        if_neg Bool.false_ne_true, String.ofList_toList]
    rw [hadd]
    exact h.addText hblank hframes

theorem Shows.foldlM_addText (h : a.Shows frames done) (hframes : frames ≠ [])
    (pieces : List String) :
    ∃ b, pieces.foldlM Assembly.addText a = .ok b ∧
      b.Shows frames ((pieces.map String.toList).foldl Tree.addData done) := by
  induction pieces generalizing a done with
  | nil => exact ⟨a, rfl, h⟩
  | cons piece rest ih =>
    obtain ⟨b, hb, hs⟩ := h.exists_addText hframes piece
    obtain ⟨c, hc, hs'⟩ := ih hs
    refine ⟨c, ?_, hs'⟩
    rw [List.foldlM_cons, hb]
    exact hc

/-- The pieces of character data that are not blank, joined. -/
def keptText (pieces : List String) : String :=
  String.ofList (keptData (pieces.map String.toList))

/-- Inside of an open element, pieces of character data that come one after the other leave what
those of them leave together that are not blank. They leave what all of them leave together exactly
if none of them is a blank that holds something. -/
theorem addText_pieces {steps : List Step} (ha : steps.foldlM step start = .ok a)
    (hopen : a.openPlaces ≠ []) {pieces : List String}
    (hvisible : Text.isAllBlank (String.join pieces) = false) :
    ∃ b c, pieces.foldlM addText a = .ok b ∧ a.addText (keptText pieces) = .ok b ∧
      a.addText (String.join pieces) = .ok c ∧
      (b = c ↔ ∀ piece ∈ pieces, Text.isAllBlank piece = true → piece = "") := by
  have hopens : ∀ s : Step, s.Opens fun _ _ => True := by
    rintro (_ | _ | _ | _) <;> simp [Step.Opens]
  obtain ⟨frames, done, hs, -⟩ : a.Tidy fun _ _ => True :=
    foldlM_keeps (fun hb hc => hb.step (hopens _) hc) tidy_start ha
  have hframes : frames ≠ [] := by
    rintro rfl
    exact hopen hs.places
  have hjoin : (String.join pieces).toList = (pieces.map String.toList).flatten := by
    rw [String.toList_join, List.flatMap_def]
  have hseen : (pieces.map String.toList).flatten.all Text.isBlank = false := by
    rw [← hjoin]
    exact hvisible
  obtain ⟨b, hb, hbs⟩ := hs.foldlM_addText hframes pieces
  obtain ⟨b', hb', hbs'⟩ := hs.exists_addText hframes (keptText pieces)
  obtain ⟨c, hc, hcs⟩ := hs.exists_addText hframes (String.join pieces)
  rw [foldl_addData] at hbs
  rw [keptText, String.toList_ofList] at hbs'
  rw [hjoin] at hcs
  obtain rfl : b = b' := hbs.unique hbs'
  refine ⟨b, c, hb, hb', hc, ?_⟩
  have hkept : keptData (pieces.map String.toList) = (pieces.map String.toList).flatten ↔
      ∀ piece ∈ pieces, Text.isAllBlank piece = true → piece = "" := by
    rw [keptData_eq_flatten_iff, List.forall_mem_map]
    exact forall₂_congr fun piece _ => imp_congr Iff.rfl String.toList_eq_nil_iff
  rw [← hkept]
  constructor
  · rintro rfl
    rw [Tree.addData, all_isBlank_keptData, hseen, if_neg Bool.false_ne_true] at hbs
    rw [Tree.addData, hseen, if_neg Bool.false_ne_true] at hcs
    have hsame := hbs.lastText?_addText.symm.trans hcs.lastText?_addText
    simpa [← String.toList_inj] using hsame
  · intro hsame
    rw [← hsame] at hcs
    exact hbs.unique hcs

/-- An empty piece between others, inside of an element that holds some character data already. -/
theorem addText_pieces_of_empty :
    ∃ a b c, [Step.openRaw "a" [], .addText "zero "].foldlM step start = .ok a ∧
      a.openPlaces ≠ [] ∧ Text.isAllBlank (String.join ["one ", "", "two"]) = false ∧
      ["one ", "", "two"].foldlM addText a = .ok b ∧
      a.addText (String.join ["one ", "", "two"]) = .ok c ∧ b = c := by
  obtain ⟨a, ha⟩ := exists_eq_ok
    (x := [Step.openRaw "a" [], .addText "zero "].foldlM step start) (by decide +kernel)
  have hopen : a.openPlaces ≠ [] := by
    have hall : ∀ a ∈ ([Step.openRaw "a" [], .addText "zero "].foldlM step start).toOption,
        a.openPlaces ≠ [] := by
      decide +kernel
    exact hall a (toOption_eq_some.2 ha)
  have hvisible : Text.isAllBlank (String.join ["one ", "", "two"]) = false := by decide +kernel
  obtain ⟨b, c, hb, -, hc, hsame⟩ := addText_pieces ha hopen hvisible
  exact ⟨a, b, c, ha, hopen, hvisible, hb, hc, hsame.2 (by decide +kernel)⟩

/-- A blank between two words is lost where it comes as a piece of its own. -/
theorem addText_pieces_differ :
    ∃ a b c, [Step.openRaw "a" []].foldlM step start = .ok a ∧ a.openPlaces ≠ [] ∧
      Text.isAllBlank (String.join ["one", " ", "two"]) = false ∧
      ["one", " ", "two"].foldlM addText a = .ok b ∧
      a.addText (String.join ["one", " ", "two"]) = .ok c ∧
      b.lastText? b.current = some (2, "onetwo") ∧ c.lastText? c.current = some (2, "one two") := by
  have hrun : ∃ a ∈ ([Step.openRaw "a" []].foldlM step start).toOption,
      ∃ b ∈ (["one", " ", "two"].foldlM addText a).toOption,
      ∃ c ∈ (a.addText (String.join ["one", " ", "two"])).toOption, a.openPlaces ≠ [] ∧
        Text.isAllBlank (String.join ["one", " ", "two"]) = false ∧
        b.lastText? b.current = some (2, "onetwo") ∧
        c.lastText? c.current = some (2, "one two") := by
    decide +kernel
  obtain ⟨a, ha, b, hb, c, hc, hopen, hvisible, hlast⟩ := hrun
  exact ⟨a, b, c, toOption_eq_some.1 ha, hopen, hvisible, toOption_eq_some.1 hb,
    toOption_eq_some.1 hc, hlast⟩

end Assembly

end SoapKit.Xml
