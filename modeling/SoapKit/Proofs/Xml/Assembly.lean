import SoapKit.Proofs.Xml.Tree
import SoapKit.Xml.Assembly

/-!
# Assemblies as trees with a path of open elements

The table of an assembly lists a forest at all times: closing an element changes no entry, so the
elements that are still open may be read as closed already. A `Frame` is an open element with its
finished siblings before it, and `plug` closes all frames.

Every step of an assembly is the step on trees that one expects: an opening adds a frame, a closing
moves an element among its siblings, and character data joins a run that ends there
(`Shows.openTag`, `Shows.close`, `Shows.addText`). So a finished document shows the forest that is
left when all frames are closed (`Shows.finish`).
-/

namespace SoapKit.Xml

open SoapKit.Xml.Tree

/-! ## Open elements -/

/-- An open element with the finished trees before it, in the element around it. -/
structure Frame where
  tag : Tag
  before : List Tree

namespace Frame

/-- The forest at the top once all frames are closed; `done` is what the innermost one holds. -/
def plug : List Frame → List Tree → List Tree
  | [], done => done
  | f :: outer, done => plug outer (f.before ++ [.element f.tag done])

/-- The place of the innermost open element, or of the document. -/
def innermost : List Frame → Nat
  | [] => 0
  | f :: outer => innermost outer + 1 + sizeAll f.before

/-- The places of the open elements, innermost first. -/
def opened : List Frame → List Nat
  | [] => []
  | f :: outer => innermost (f :: outer) :: opened outer

/-- The entry of the innermost open element, or of the document, with the given children. -/
def currentEntry : List Frame → List Nat → Entry
  | [], children => ⟨none, children, .document⟩
  | f :: outer, children => ⟨some (innermost outer), children, .element f.tag⟩

/-- The entries in front of the innermost open element. -/
def entriesBefore : List Frame → List Entry
  | [] => []
  | f :: outer =>
    entriesBefore outer ++
      currentEntry outer (places (innermost outer + 1) f.before ++ [innermost (f :: outer)]) ::
        entriesAll (innermost outer) (innermost outer + 1) f.before

theorem length_entriesBefore (frames : List Frame) :
    (entriesBefore frames).length = innermost frames := by
  induction frames with
  | nil => rfl
  | cons f outer ih =>
    simp only [entriesBefore, innermost, List.length_append, List.length_cons,
      length_entriesAll, ih]
    omega

/-- The table is what stands before the innermost open element, its entry, and what it holds. -/
theorem table_plug (frames : List Frame) (done : List Tree) :
    table (plug frames done) =
      entriesBefore frames ++
        currentEntry frames (places (innermost frames + 1) done) ::
          entriesAll (innermost frames) (innermost frames + 1) done := by
  induction frames generalizing done with
  | nil => rfl
  | cons f outer ih =>
    have hplace : innermost outer + 1 + sizeAll f.before = innermost (f :: outer) := rfl
    rw [plug, ih, places_append, entriesAll_append, hplace, entriesBefore]
    simp only [places, entriesAll, entries, List.append_nil, List.append_assoc, List.cons_append]
    rfl

end Frame

/-- Nothing, or one element: what may stand at the top of a document. -/
def Tree.Rooted (forest : List Tree) : Prop :=
  forest = [] ∨ ∃ tag children, forest = [.element tag children]

/-- Whether one element stands at the top is settled as soon as it is open. -/
theorem Frame.rooted_plug_cons {f : Frame} {outer : List Frame} {done : List Tree}
    (h : Rooted (plug (f :: outer) done)) (done' : List Tree) :
    Rooted (plug (f :: outer) done') := by
  induction outer generalizing f done done' with
  | nil =>
    have hbefore : f.before = [] := by
      rcases h with h | ⟨tag, children, h⟩
      · simp [plug] at h
      · simpa [plug, List.append_eq_singleton_iff] using congrArg List.length h
    exact .inr ⟨f.tag, done', by simp [plug, hbefore]⟩
  | cons g outer ih => exact ih h _

/-- A forest with character data behind it; it joins a run that ends there. -/
def Tree.addText (forest : List Tree) (data : String) : List Tree :=
  match forest.getLast? with
  | some (.text before) => forest.dropLast ++ [.text (before ++ data)]
  | _ => forest ++ [.text data]

/-- The tag with its declarations in their order. -/
def Tag.sorted (tag : Tag) : Tag :=
  { tag with declarations := tag.declarations.mergeSort Declaration.le }

namespace Assembly

open SoapKit.Xml.Frame

/-- An assembly's table lists the forest of the frames, its other fields speak of the frames. -/
structure Shows (a : Assembly) (frames : List Frame) (done : List Tree) : Prop where
  table : a.entries.toList = Tree.table (plug frames done)
  places : a.openPlaces = opened frames
  scopes : a.scopes = frames.map (·.tag.declarations)
  root : a.hasRoot = !(plug frames done).isEmpty
  rooted : Rooted (plug frames done)

theorem shows_start : Assembly.start.Shows [] [] :=
  ⟨rfl, rfl, rfl, rfl, .inl rfl⟩

theorem plug_isEmpty_of_cons (f : Frame) (outer : List Frame) (done : List Tree) :
    (plug (f :: outer) done).isEmpty = false := by
  induction outer generalizing f done with
  | nil => simp [plug]
  | cons g outer ih => exact ih g _

theorem modify_append_cons {α : Type} (f : α → α) (xs : List α) (y : α) (zs : List α) :
    (xs ++ y :: zs).modify xs.length f = xs ++ f y :: zs := by
  induction xs with
  | nil => rfl
  | cons x xs ih => rw [List.cons_append, List.length_cons, List.modify_succ_cons, ih]; rfl

variable {a : Assembly} {frames : List Frame} {done : List Tree}

theorem Shows.current_eq (h : a.Shows frames done) : a.current = innermost frames := by
  rw [current, h.places]
  cases frames <;> rfl

theorem Shows.entries_eq (h : a.Shows frames done) :
    a.entries.toList =
      entriesBefore frames ++
        currentEntry frames (Tree.places (innermost frames + 1) done) ::
          entriesAll (innermost frames) (innermost frames + 1) done := by
  rw [h.table, table_plug]

theorem Shows.size_eq (h : a.Shows frames done) :
    a.entries.size = innermost frames + 1 + sizeAll done := by
  have := congrArg List.length h.entries_eq
  simp only [List.length_append, List.length_cons, length_entriesBefore, length_entriesAll,
    Array.length_toList] at this
  omega

theorem modify_innermost (frames : List Frame) (children : List Nat) (rest : List Entry)
    (place : Nat) :
    (entriesBefore frames ++ currentEntry frames children :: rest).modify (innermost frames)
        (fun e => { e with children := e.children ++ [place] }) =
      entriesBefore frames ++ currentEntry frames (children ++ [place]) :: rest := by
  rw [← length_entriesBefore, modify_append_cons]
  cases frames <;> rfl

/-- A node that is appended stands behind what the innermost open element holds. -/
theorem Shows.append_table (h : a.Shows frames done) {t : Tree} {content : Content}
    (ht : ∀ parent place, t.entries parent place = [⟨some parent, [], content⟩]) :
    (a.append content).entries.toList = Tree.table (plug frames (done ++ [t])) := by
  simp only [append, h.current_eq, Array.toList_push, Array.toList_modify]
  rw [h.entries_eq, modify_innermost, h.size_eq, table_plug, places_append, entriesAll_append]
  simp [entriesAll, ht, Tree.places]

/-! ## The steps -/

/-- An opening adds a frame; a second element at the top is refused. -/
theorem Shows.openTag (h : a.Shows frames done) (tag : Tag) :
    (frames = [] ∧ done ≠ [] ∧ a.openTag tag = .error .multipleRoots) ∨
      ((frames = [] → done = []) ∧ ∃ a', a.openTag tag = .ok a' ∧
        a'.Shows (⟨tag.sorted, done⟩ :: frames) []) := by
  by_cases htop : frames = [] ∧ done ≠ []
  · obtain ⟨rfl, hdone⟩ := htop
    refine .inl ⟨rfl, hdone, ?_⟩
    have hplaces : a.openPlaces = [] := h.places
    have hroot : a.hasRoot = true := by
      rw [h.root, plug]
      simpa using hdone
    simp [Assembly.openTag, hplaces, hroot]
  · have htop' : frames = [] → done = [] := by simpa using htop
    refine .inr ⟨htop', ?_⟩
    have hfirst : (a.openPlaces.isEmpty && a.hasRoot) = false := by
      rw [h.places, h.root]
      cases frames with
      | nil => simp [htop' rfl, plug]
      | cons f outer => rfl
    simp only [Assembly.openTag, hfirst, Bool.false_eq_true, if_false]
    refine ⟨_, rfl, ?_, ?_, ?_, ?_, ?_⟩
    · exact h.append_table (t := .element tag.sorted []) fun _ _ => rfl
    · show a.entries.size :: a.openPlaces = _
      rw [h.size_eq, h.places]
      rfl
    · show _ :: a.scopes = _
      rw [h.scopes]
      rfl
    · show true = _
      rw [plug_isEmpty_of_cons]
      rfl
    · cases frames with
      | nil => exact .inr ⟨tag.sorted, [], by rw [plug, plug, htop' rfl]; rfl⟩
      | cons f outer => exact rooted_plug_cons (f := f) h.rooted _

/-- A closing puts the innermost element behind its siblings. -/
theorem Shows.close {f : Frame} (h : a.Shows (f :: frames) done) (written : String) :
    ∃ a', a.close written = .ok a' ∧ a'.Shows frames (f.before ++ [.element f.tag done]) := by
  obtain ⟨htable, hplaces, hscopes, hroot, hrooted⟩ := h
  refine ⟨{ a with openPlaces := opened frames, scopes := a.scopes.tail }, ?_, ?_⟩
  · simp only [Assembly.close, hplaces, opened]
  · exact ⟨htable, rfl, by rw [hscopes]; rfl, hroot, hrooted⟩

theorem Shows.close_nil (h : a.Shows [] done) (written : String) :
    a.close written = .error (.unexpectedEnd written) := by
  have hplaces : a.openPlaces = [] := h.places
  rw [Assembly.close, hplaces]

theorem Shows.entry_current (h : a.Shows frames done) :
    a.entries[innermost frames]? =
      some (currentEntry frames (Tree.places (innermost frames + 1) done)) := by
  rw [← Array.getElem?_toList, h.entries_eq, ← length_entriesBefore frames,
    List.getElem?_append_right (Nat.le_refl _), Nat.sub_self]
  rfl

theorem currentEntry_children (frames : List Frame) (children : List Nat) :
    (currentEntry frames children).children = children := by
  cases frames <;> rfl

/-- The entries around the last tree that the innermost open element holds. -/
theorem Shows.entries_concat {init : List Tree} {t : Tree} (h : a.Shows frames (init ++ [t])) :
    a.entries.toList =
      (entriesBefore frames ++
        currentEntry frames (Tree.places (innermost frames + 1) (init ++ [t])) ::
          entriesAll (innermost frames) (innermost frames + 1) init) ++
        t.entries (innermost frames) (innermost frames + 1 + sizeAll init) := by
  rw [h.entries_eq, entriesAll_append]
  simp [entriesAll]

theorem length_beforeLast (frames : List Frame) (children : List Nat) (init : List Tree) :
    (entriesBefore frames ++ currentEntry frames children ::
      entriesAll (innermost frames) (innermost frames + 1) init).length =
        innermost frames + 1 + sizeAll init := by
  simp only [List.length_append, List.length_cons, length_entriesBefore, length_entriesAll]
  omega

/-- The last text is found exactly where the innermost open element ends with one. -/
theorem Shows.lastText? (h : a.Shows frames done) :
    a.lastText? a.current =
      match done.getLast? with
      | some (.text before) => some (innermost frames + 1 + sizeAll done.dropLast, before)
      | _ => none := by
  rcases List.eq_nil_or_concat done with rfl | ⟨init, t, rfl⟩
  · simp only [Assembly.lastText?, h.current_eq, h.entry_current]
    simp [currentEntry_children, Tree.places]
  · rw [List.concat_eq_append] at h ⊢
    have hlast : (t.entries (innermost frames) (innermost frames + 1 + sizeAll init)).head? =
        a.entries[innermost frames + 1 + sizeAll init]? := by
      rw [← Array.getElem?_toList, h.entries_concat,
        ← length_beforeLast frames (Tree.places (innermost frames + 1) (init ++ [t])) init,
        List.getElem?_append_right (Nat.le_refl _), Nat.sub_self, List.head?_eq_getElem?]
    simp only [Assembly.lastText?, h.current_eq, h.entry_current, Option.bind_eq_bind,
      Option.bind_some, currentEntry_children, places_append]
    cases t with
    | text data => simp [Tree.places, ← hlast, Tree.entries]
    | element tag children => simp [Tree.places, ← hlast, Tree.entries]

/-- Character data that is not blank goes behind what the innermost open element holds. -/
theorem Shows.addText (h : a.Shows frames done) {data : String}
    (hdata : Text.isAllBlank data = false) (hframes : frames ≠ []) :
    ∃ a', a.addText data = .ok a' ∧ a'.Shows frames (Tree.addText done data) := by
  obtain ⟨f, outer, rfl⟩ := List.exists_cons_of_ne_nil hframes
  have hopen : a.openPlaces.isEmpty = false := by
    rw [h.places]
    rfl
  have hroot : ∀ forest, true = !(plug (f :: outer) forest).isEmpty := fun forest => by
    rw [plug_isEmpty_of_cons]
    rfl
  have hadded : (a.append (.text data)).Shows (f :: outer) (done ++ [.text data]) :=
    ⟨h.append_table fun _ _ => rfl, h.places, h.scopes, h.root.trans (by rw [← hroot, ← hroot]),
      rooted_plug_cons h.rooted _⟩
  simp only [Assembly.addText, hdata, hopen, h.lastText?, Bool.false_eq_true, if_false]
  rcases List.eq_nil_or_concat done with rfl | ⟨init, t, rfl⟩
  · exact ⟨_, rfl, hadded⟩
  · rw [List.concat_eq_append] at h hadded ⊢
    cases t with
    | element tag children =>
      simp only [Tree.addText, List.getLast?_concat]
      exact ⟨_, rfl, hadded⟩
    | text before =>
      simp only [Tree.addText, List.getLast?_concat, List.dropLast_concat]
      refine ⟨_, rfl, ?_, h.places, h.scopes, h.root.trans (by rw [← hroot, ← hroot]),
        rooted_plug_cons h.rooted _⟩
      have hmodify := modify_append_cons
        (fun e : Entry => { e with content := .text (before ++ data) })
        (entriesBefore (f :: outer) ++
          currentEntry (f :: outer)
              (Tree.places (innermost (f :: outer) + 1) (init ++ [.text before]))
            :: entriesAll (innermost (f :: outer)) (innermost (f :: outer) + 1) init)
        ⟨some (innermost (f :: outer)), [], .text before⟩ []
      rw [length_beforeLast] at hmodify
      rw [Array.toList_modify, h.entries_concat]
      refine hmodify.trans ?_
      rw [table_plug, places_append, places_append, entriesAll_append]
      simp [Tree.places, entriesAll, Tree.entries]

theorem addText_blank {data : String} (hdata : Text.isAllBlank data = true) :
    a.addText data = .ok a := by
  rw [Assembly.addText, hdata]
  rfl

theorem Shows.addText_nil (h : a.Shows [] done) {data : String}
    (hdata : Text.isAllBlank data = false) : a.addText data = .error .textOutsideRoot := by
  have hplaces : a.openPlaces = [] := h.places
  simp [Assembly.addText, hdata, hplaces]

/-- What is finished has no open element and at least one tree. -/
theorem Shows.finish (h : a.Shows frames done) {d : Document} (hd : a.finish = .ok d) :
    frames = [] ∧ d.Shows done ∧ d.registered = [] ∧
      ∃ tag children, done = [.element tag children] := by
  cases frames with
  | cons f outer =>
    have hplaces := h.places
    rw [opened] at hplaces
    simp [Assembly.finish, hplaces] at hd
  | nil =>
    have hplaces : a.openPlaces = [] := h.places
    have hroot := h.root
    simp only [Assembly.finish, hplaces] at hd
    split at hd
    · rename_i hr
      cases hd
      rw [hr, plug] at hroot
      refine ⟨rfl, h.table, rfl, h.rooted.resolve_left fun hnil => ?_⟩
      rw [show done = [] from hnil] at hroot
      cases hroot
    · cases hd

theorem Shows.finish_eq (h : a.Shows [] done) (hdone : done ≠ []) :
    a.finish = .ok ⟨(Tree.table done).toArray, []⟩ := by
  have hplaces : a.openPlaces = [] := h.places
  have hroot : a.hasRoot = true := by
    rw [h.root, plug]
    simpa using hdone
  have htable : a.entries.toList = Tree.table done := h.table
  simp [Assembly.finish, hplaces, hroot, ← htable]

end Assembly

end SoapKit.Xml
