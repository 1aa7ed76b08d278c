import SoapKit.Proofs.Except
import SoapKit.Proofs.Xml.Assembly
import SoapKit.Proofs.Xml.Order
import SoapKit.Proofs.Xml.Tag
import SoapKit.Xml.Read

/-!
# Documents that are read or copied

A document comes out of one of the two readers, or it is a standalone copy of an element. Both
readers only open, close and add character data, so whatever these three steps keep holds of the
assembly that is finished at the end (`Lenient.read_keeps`, `Strict.read_keeps`). A copy lists the
tree of the element with other declarations on it (`Shows.subtree`).

Main result: `Produced.shows`, every such document shows a forest of at most one element.
-/

namespace SoapKit.Xml

open SoapKit.Xml.Tree

/-- Reading a text in which something can be seen is reading its characters. -/
theorem Document.read_of_visible (dialect : Dialect) {text : String}
    (h : text.toList.all Text.isBlank = false) :
    Document.read dialect text =
      match dialect with
      | .lenient => Lenient.read text.toList
      | .strict => Strict.read text.toList := by
  rw [Document.read.eq_def, Text.isAllBlank, h]
  rfl

/-! ## What the steps of an assembly keep -/

/-- A property of assemblies that opening, closing and character data keep. An element is opened
from a tag, or from the raw attributes of a tag that names none of them twice. -/
structure Assembly.Kept (I : Assembly → Prop) : Prop where
  openRaw {a a' : Assembly} {written : String} {attributes : List (String × String)} :
    I a → (attributes.map (·.1)).Nodup → a.openRaw written attributes = .ok a' → I a'
  close {a a' : Assembly} {written : String} : I a → a.close written = .ok a' → I a'
  addText {a a' : Assembly} {data : String} : I a → a.addText data = .ok a' → I a'

/-! ## The lenient reader -/

namespace Lenient

/-- No key is read twice, and none that was seen before. -/
theorem readAttributes_nodup {seen : List (List Char)} {s : List Char}
    {attributes : List (String × String)} (h : readAttributes seen s = some attributes) :
    (∀ attr ∈ attributes, attr.1.toList ∉ seen) ∧ (attributes.map (·.1)).Nodup := by
  fun_induction readAttributes seen s generalizing attributes
  case case1 =>
    cases h
    simp
  case case3 seen s first more _ inKey key value _ hseen quote quoted _ _ raw after _ ih =>
    obtain ⟨data, -, h⟩ := Option.bind_eq_some_iff.1 h
    obtain ⟨others, hothers, h⟩ := Option.bind_eq_some_iff.1 h
    cases h
    obtain ⟨hnew, hnodup⟩ := ih hothers
    constructor
    · intro attr hattr
      rcases List.mem_cons.1 hattr with rfl | hattr
      · simpa using hseen
      · exact fun hmem => hnew attr hattr (List.mem_cons_of_mem _ hmem)
    · rw [List.map_cons, List.nodup_cons]
      refine ⟨fun hmem => ?_, hnodup⟩
      obtain ⟨attr, hattr, heq⟩ := List.mem_map.1 hmem
      refine hnew attr hattr ?_
      rw [heq, String.toList_ofList]
      exact List.mem_cons_self
  all_goals cases h

variable {I : Assembly → Prop}

theorem Reading.openElement_keeps (hI : Assembly.Kept I) {r : Reading} {inside : List Char}
    {a : Assembly} (hr : I r.assembly) (h : r.openElement inside = .ok a) : I a := by
  simp only [Reading.openElement] at h
  split at h
  · rename_i attributes hattributes
    exact hI.openRaw hr (readAttributes_nodup hattributes).2 h
  · cases h

theorem Reading.step_keeps (hI : Assembly.Kept I) {r r' : Reading} {m : Markup}
    (hr : I r.assembly) (h : r.step m = .ok r') : I r'.assembly := by
  cases m with
  | text raw =>
    simp only [Reading.step] at h
    split at h
    · obtain ⟨a, ha, h⟩ := bind_eq_ok.1 h
      cases h
      exact hI.addText hr ha
    · cases h
  | literal data =>
    obtain ⟨a, ha, h⟩ := bind_eq_ok.1 h
    cases h
    exact hI.addText hr ha
  | opening inside =>
    obtain ⟨a, ha, h⟩ := bind_eq_ok.1 h
    cases h
    exact openElement_keeps hI hr ha
  | empty inside =>
    obtain ⟨a, ha, h⟩ := bind_eq_ok.1 h
    obtain ⟨a', ha', h⟩ := bind_eq_ok.1 h
    cases h
    exact hI.close (openElement_keeps hI hr ha) ha'
  | closing name =>
    simp only [Reading.step] at h
    split at h
    · cases h
    · split at h
      · obtain ⟨a, ha, h⟩ := bind_eq_ok.1 h
        cases h
        exact hI.close hr ha
      · cases h
  | passed =>
    cases h
    exact hr
  | broken => cases h

/-- What the steps keep holds of the assembly that a document is finished from. -/
theorem read_keeps (hI : Assembly.Kept I) (hstart : I Assembly.start) {s : List Char}
    {d : Document} (h : read s = .ok d) : ∃ a, I a ∧ a.finish = .ok d := by
  obtain ⟨r, hr, h⟩ := bind_eq_ok.1 h
  exact ⟨r.assembly, foldlM_keeps (P := fun r => I r.assembly) (Reading.step_keeps hI) hstart hr, h⟩

end Lenient

/-! ## The strict reader -/

namespace Strict

variable {I : Assembly → Prop}

theorem Reading.step_keeps (hI : Assembly.Kept I)
    (hopen : ∀ {a a' : Assembly} {tag : Tag}, I a → a.openTag tag = .ok a' → I a')
    {r r' : Reading} {e : Event} (hr : I r.assembly) (h : r.step e = .ok r') : I r'.assembly := by
  cases e with
  | separator =>
    cases h
    exact hr
  | opening name attributes empty =>
    simp only [Reading.step] at h
    split at h
    · cases h
    · obtain ⟨a, ha, h⟩ := bind_eq_ok.1 h
      split at h
      · obtain ⟨a', ha', h⟩ := bind_eq_ok.1 h
        cases h
        exact hI.close (hopen hr ha) ha'
      · cases h
        exact hopen hr ha
  | closing name =>
    simp only [Reading.step] at h
    split at h
    · split at h
      · obtain ⟨a, ha, h⟩ := bind_eq_ok.1 h
        cases h
        exact hI.close hr ha
      · cases h
    · cases h
  | data text =>
    obtain ⟨a, ha, h⟩ := bind_eq_ok.1 h
    cases h
    exact hI.addText hr ha

theorem read_keeps (hI : Assembly.Kept I)
    (hopen : ∀ {a a' : Assembly} {tag : Tag}, I a → a.openTag tag = .ok a' → I a')
    (hstart : I Assembly.start) {s : List Char} {d : Document} (h : read s = .ok d) :
    ∃ a, I a ∧ a.finish = .ok d := by
  unfold read at h
  split at h
  · cases h
  · obtain ⟨r, hr, h⟩ := bind_eq_ok.1 h
    exact ⟨r.assembly,
      foldlM_keeps (P := fun r => I r.assembly) (Reading.step_keeps hI hopen) hstart hr, h⟩

end Strict

/-! ## Every read document shows a tree -/

/-- An assembly that shows some forest. -/
def Assembly.Sound (a : Assembly) : Prop :=
  ∃ frames done, a.Shows frames done

theorem Assembly.sound_openTag {a a' : Assembly} {tag : Tag} (ha : a.Sound)
    (h : a.openTag tag = .ok a') : a'.Sound := by
  obtain ⟨frames, done, hs⟩ := ha
  rcases hs.openTag tag with ⟨-, -, herror⟩ | ⟨-, b, hb, hs'⟩
  · rw [herror] at h
    cases h
  · rw [hb] at h
    cases h
    exact ⟨_, _, hs'⟩

theorem Assembly.kept_sound : Kept Sound where
  openRaw ha _ h := by
    obtain ⟨tag, -, h⟩ := exists_resolved_of_openRaw h
    exact sound_openTag ha h
  close := by
    rintro a a' written ⟨frames, done, hs⟩ h
    cases frames with
    | nil =>
      rw [hs.close_nil] at h
      cases h
    | cons f outer =>
      obtain ⟨b, hb, hs'⟩ := hs.close written
      rw [hb] at h
      cases h
      exact ⟨_, _, hs'⟩
  addText := by
    rintro a a' data ⟨frames, done, hs⟩ h
    by_cases hdata : Text.isAllBlank data = true
    · rw [addText_blank hdata] at h
      cases h
      exact ⟨_, _, hs⟩
    · rw [Bool.not_eq_true] at hdata
      by_cases hframes : frames = []
      · subst hframes
        rw [hs.addText_nil hdata] at h
        cases h
      · obtain ⟨b, hb, hs'⟩ := hs.addText hdata hframes
        rw [hb] at h
        cases h
        exact ⟨_, _, hs'⟩

namespace Document

theorem shows_of_finish {a : Assembly} {d : Document} (ha : a.Sound) (h : a.finish = .ok d) :
    ∃ tag children, d.Shows [.element tag children] := by
  obtain ⟨frames, done, hs⟩ := ha
  obtain ⟨-, hd, -, tag, children, rfl⟩ := hs.finish h
  exact ⟨tag, children, hd⟩

/-- Whatever the dialect, a document that is read lists one element and what is below it. -/
theorem read_shows {dialect : Dialect} {text : String} {d : Document}
    (h : Document.read dialect text = .ok d) :
    ∃ tag children, d.Shows [.element tag children] := by
  have hstart : Assembly.start.Sound := ⟨_, _, Assembly.shows_start⟩
  unfold Document.read at h
  split at h
  · cases h
  · cases dialect with
    | lenient =>
      obtain ⟨a, ha, hd⟩ := Lenient.read_keeps Assembly.kept_sound hstart h
      exact shows_of_finish ha hd
    | strict =>
      obtain ⟨a, ha, hd⟩ :=
        Strict.read_keeps Assembly.kept_sound Assembly.sound_openTag hstart h
      exact shows_of_finish ha hd

/-! ## Copies -/

/-- An entry with more children. -/
def addChildren (more : List Nat) (e : Entry) : Entry :=
  { e with children := e.children ++ more }

theorem modify_addChildren_append (xs ys : List Nat) (p : Nat) (es : List Entry) :
    (es.modify p (addChildren xs)).modify p (addChildren ys) =
      es.modify p (addChildren (xs ++ ys)) := by
  rw [List.modify_modify_eq]
  congr 1
  funext e
  simp [addChildren]

theorem modify_append_of_lt {f : Entry → Entry} {p : Nat} {es : List Entry} (hp : p < es.length)
    (more : List Entry) : (es ++ more).modify p f = es.modify p f ++ more := by
  induction es generalizing p with
  | nil => cases hp
  | cons e es ih =>
    cases p with
    | zero => rfl
    | succ p =>
      rw [List.cons_append, List.modify_succ_cons, ih (Nat.lt_of_succ_lt_succ hp),
        List.modify_succ_cons, List.cons_append]

variable {d : Document}

mutual

/-- A copy adds a child to its new parent and the entries of the tree at the end. -/
theorem Holds.copyInto_eq {parent place steps p : Nat} {target : Array Entry} : ∀ {t : Tree},
    d.Holds parent place t → t.size ≤ steps → p < target.size →
      (d.copyInto steps target p place).toList =
        target.toList.modify p (addChildren [target.size]) ++ t.entries p target.size
  | .text data, h, hsteps, hp => by
    obtain ⟨steps, rfl⟩ : ∃ k, steps = k + 1 := ⟨steps - 1, by rw [size] at hsteps; omega⟩
    rw [copyInto, h.entry_text]
    simp only [List.foldl_nil, Array.toList_push, Array.toList_modify]
    rfl
  | .element tag children, h, hsteps, hp => by
    rw [size] at hsteps
    obtain ⟨steps, rfl⟩ : ∃ k, steps = k + 1 := ⟨steps - 1, by omega⟩
    have hmodify := Assembly.modify_append_cons (addChildren (places (target.size + 1) children))
      (target.toList.modify p (addChildren [target.size]))
      ⟨some p, [], .element tag⟩ []
    rw [List.length_modify, Array.length_toList] at hmodify
    rw [copyInto, h.entry_element]
    simp only
    rw [HoldsAll.copyInto_eq h.children (by omega) (by simp)]
    simp only [Array.toList_push, Array.toList_modify, Array.size_push, Array.size_modify]
    refine (congrArg (· ++ _) hmodify).trans ?_
    rw [List.append_assoc]
    rfl

theorem HoldsAll.copyInto_eq {parent place steps p : Nat} {target : Array Entry} :
    ∀ {forest : List Tree}, d.HoldsAll parent place forest → sizeAll forest ≤ steps →
      p < target.size →
        ((places place forest).foldl (fun target child => d.copyInto steps target p child)
            target).toList =
          target.toList.modify p (addChildren (places target.size forest)) ++
            entriesAll p target.size forest
  | [], _, _, _ => by
    have hnone : addChildren [] = id := by
      funext e
      simp [addChildren]
    simp [places, entriesAll, hnone]
  | t :: rest, h, hsteps, hp => by
    rw [sizeAll] at hsteps
    have hcopy : (d.copyInto steps target p place).toList = _ ++ t.entries p target.size :=
      h.head.copyInto_eq (by omega) hp
    have hsize : (d.copyInto steps target p place).size = target.size + t.size := by
      rw [← Array.length_toList, hcopy, List.length_append, List.length_modify, length_entries,
        Array.length_toList]
    rw [places, List.foldl_cons, HoldsAll.copyInto_eq h.tail (by omega) (by omega), hcopy, hsize,
      modify_append_of_lt (by simpa using hp), modify_addChildren_append, places, entriesAll,
      List.append_assoc]
    rfl

end

variable {forest : List Tree}

/-- The tree at an element. -/
theorem Shows.holds_of_tag (h : d.Shows forest) {n : Node} {tag : Tag} (hn : d.tag n = some tag) :
    n.attr = none ∧ ∃ parent children, d.Holds parent n.place (.element tag children) := by
  obtain ⟨place, attr⟩ := n
  cases attr with
  | some index => cases hn
  | none =>
    have hcontent : (d.entry place).content = .element tag := by
      simp only [Document.tag, tagAt] at hn
      split at hn
      · rename_i tag' hcontent
        cases hn
        exact hcontent
      · cases hn
    refine ⟨rfl, ?_⟩
    have hpos : 0 < place := by
      refine Nat.pos_of_ne_zero fun h0 => ?_
      rw [h0, h.entry_zero] at hcontent
      cases hcontent
    have hlt : place < d.entries.size := by
      refine Nat.lt_of_not_le fun hle => ?_
      rw [entry_of_size_le hle] at hcontent
      cases hcontent
    obtain ⟨parent, t, ht, -⟩ := h.locate hpos hlt
    cases t with
    | text data =>
      rw [ht.entry_text] at hcontent
      cases hcontent
    | element tag' children =>
      rw [ht.entry_element] at hcontent
      cases hcontent
      exact ⟨parent, children, ht⟩

theorem subtree_of_not_element {n : Node} (hn : d.isElement n = false) :
    (d.subtree n).Shows [] := by
  simp only [Shows, subtree, hn]
  rfl

/-- A copy of an element lists its tree, with the declarations in effect on the element. -/
theorem Holds.subtree {parent place : Nat} {tag : Tag} {children : List Tree}
    (h : d.Holds parent place (.element tag children)) :
    (d.subtree (Node.ofPlace place)).Shows
      [.element
        { tag with declarations := (d.namespacesInScope (Node.ofPlace place)).reverse }
        children] := by
  have htag : d.tag (Node.ofPlace place) = some tag := by
    show d.tagAt place = some tag
    rw [tagAt, h.entry_element]
  have hsize := h.size_le
  have hcopy : (d.copyInto d.entries.size blankEntries 0 place).toList = _ ++ _ :=
    h.copyInto_eq (by omega) (by decide)
  simp only [Shows, Document.subtree, isElement, htag, Option.isSome_some, if_true,
    Array.toList_modify]
  rw [show (Node.ofPlace place).place = place from rfl, hcopy, table, entriesAll, entriesAll,
    List.append_nil]
  rfl

/-! ## All of them -/

/-- The documents that come out of a reader, and those that are made from them. -/
inductive Produced : Document → Prop where
  | read {dialect : Dialect} {text : String} {d : Document} :
      Document.read dialect text = .ok d → Produced d
  | subtree {d : Document} (n : Node) : Produced d → Produced (d.subtree n)
  | register {d : Document} (qualifier uri : String) :
      Produced d → Produced (d.register qualifier uri)

/-- Every such document lists a forest of at most one element. -/
theorem Produced.shows (h : Produced d) : ∃ forest, Rooted forest ∧ d.Shows forest := by
  induction h with
  | read h =>
    obtain ⟨tag, children, hd⟩ := read_shows h
    exact ⟨_, .inr ⟨tag, children, rfl⟩, hd⟩
  | @subtree d n _ ih =>
    obtain ⟨forest, -, hd⟩ := ih
    cases hn : d.tag n with
    | none => exact ⟨[], .inl rfl, subtree_of_not_element (by rw [isElement, hn]; rfl)⟩
    | some tag =>
      obtain ⟨hattr, parent, children, ht⟩ := hd.holds_of_tag hn
      obtain ⟨place, attr⟩ := n
      cases hattr
      exact ⟨_, .inr ⟨_, _, rfl⟩, ht.subtree⟩
  | register qualifier uri _ ih => exact ih

end Document

end SoapKit.Xml
