import Mathlib.Data.List.Nodup
import Mathlib.Data.List.Infix

/-!
# Discovery

A search begins with some items and opens one after the other; what an item mentions is put behind
all that waits, unless an item with its key was met before. Some items are thereby open and others
wait, and two facts hold all along (`Discovered`):

* the items met so far are the first mentions of their keys, in the order of the mentions, and
* every open item was mentioned at the start or by an item that was opened before it.

The first is an equation between the items met and the items mentioned by the open ones, and a set
of items that only mention each other could satisfy it as well. The second rules that out, so that
together they fix the order (`Discovered.opened_unique`) and make the keys of the items met the
least set that has the first ones and is closed under mentions.
-/

namespace SoapKit

variable {α κ : Type} [DecidableEq κ] {key : α → κ}

/-! ## First mentions -/

/-- Items that were met, with one more, unless one with its key was met before. -/
def note (key : α → κ) (met : List α) (x : α) : List α :=
  if key x ∈ met.map key then met else met ++ [x]

/-- The items of a list that are the first with their keys. -/
def firsts (key : α → κ) (xs : List α) : List α :=
  xs.foldl (note key) []

theorem note_of_mem {met : List α} {x : α} (h : key x ∈ met.map key) : note key met x = met :=
  if_pos h

theorem note_of_not_mem {met : List α} {x : α} (h : key x ∉ met.map key) :
    note key met x = met ++ [x] :=
  if_neg h

theorem prefix_note (met : List α) (x : α) : met <+: note key met x := by
  unfold note
  split
  · exact List.prefix_rfl
  · exact List.prefix_append ..

theorem mem_of_mem_note {met : List α} {x y : α} (h : y ∈ note key met x) : y ∈ met ∨ y = x := by
  unfold note at h
  split at h
  · exact .inl h
  · simpa using h

theorem mem_keys_note {met : List α} {x : α} {k : κ} :
    k ∈ (note key met x).map key ↔ k ∈ met.map key ∨ k = key x := by
  unfold note
  split
  · next h => exact ⟨.inl, fun hk => hk.elim id (· ▸ h)⟩
  · simp

theorem nodup_note {met : List α} {x : α} (h : (met.map key).Nodup) :
    ((note key met x).map key).Nodup := by
  unfold note
  split
  · exact h
  · next hx =>
    rw [List.map_append, List.nodup_append']
    exact ⟨h, List.nodup_singleton _, by simpa [List.disjoint_singleton] using hx⟩

theorem prefix_foldl_note (met xs : List α) : met <+: xs.foldl (note key) met := by
  induction xs generalizing met with
  | nil => exact List.prefix_rfl
  | cons x rest ih => exact (prefix_note met x).trans (ih _)

theorem mem_of_mem_foldl_note {met xs : List α} {y : α} (h : y ∈ xs.foldl (note key) met) :
    y ∈ met ∨ y ∈ xs := by
  induction xs generalizing met with
  | nil => exact .inl h
  | cons x rest ih =>
    rcases ih h with h | h
    · refine (mem_of_mem_note h).imp_right ?_
      rintro rfl
      exact List.mem_cons_self
    · exact .inr (List.mem_cons_of_mem _ h)

theorem mem_keys_foldl_note {met xs : List α} {k : κ} :
    k ∈ (xs.foldl (note key) met).map key ↔ k ∈ met.map key ∨ k ∈ xs.map key := by
  induction xs generalizing met with
  | nil => simp
  | cons x rest ih =>
    rw [List.foldl_cons, ih, mem_keys_note, List.map_cons, List.mem_cons, or_assoc]

theorem nodup_foldl_note {met : List α} (xs : List α) (h : (met.map key).Nodup) :
    ((xs.foldl (note key) met).map key).Nodup := by
  induction xs generalizing met with
  | nil => exact h
  | cons x rest ih => exact ih (nodup_note h)

theorem firsts_append (xs ys : List α) :
    firsts key (xs ++ ys) = ys.foldl (note key) (firsts key xs) :=
  List.foldl_append

theorem mem_of_mem_firsts {xs : List α} {x : α} (h : x ∈ firsts key xs) : x ∈ xs :=
  (mem_of_mem_foldl_note h).resolve_left List.not_mem_nil

theorem mem_keys_firsts {xs : List α} {k : κ} : k ∈ (firsts key xs).map key ↔ k ∈ xs.map key := by
  rw [firsts, mem_keys_foldl_note]
  simp

theorem nodup_firsts (xs : List α) : ((firsts key xs).map key).Nodup :=
  nodup_foldl_note xs List.nodup_nil

theorem head?_firsts (xs : List α) : (firsts key xs).head? = xs.head? := by
  cases xs with
  | nil => rfl
  | cons x rest =>
    obtain ⟨later, h⟩ : [x] <+: rest.foldl (note key) [x] := prefix_foldl_note ..
    have hfirsts : firsts key (x :: rest) = rest.foldl (note key) [x] := rfl
    rw [hfirsts, ← h]
    rfl

theorem find?_foldl_note (met xs : List α) (k : κ) :
    (xs.foldl (note key) met).find? (key · == k) = (met ++ xs).find? (key · == k) := by
  induction xs generalizing met with
  | nil => simp
  | cons x rest ih =>
    rw [List.foldl_cons, ih]
    by_cases hx : key x ∈ met.map key
    · rw [note_of_mem hx]
      obtain ⟨y, hy, hkey⟩ := List.mem_map.1 hx
      -- When `x` has the key that is looked for, an item before it has that key too.
      by_cases hk : key x = k
      · have hfound : (met.find? (key · == k)).isSome := by
          rw [List.find?_isSome]
          exact ⟨y, hy, by simpa using hkey.trans hk⟩
        obtain ⟨z, hz⟩ := Option.isSome_iff_exists.1 hfound
        rw [List.find?_append, List.find?_append, hz, Option.some_or, Option.some_or]
      · simp [List.find?_append, hk]
    · rw [note_of_not_mem hx, List.append_assoc, List.singleton_append]

/-- Among the first items with their keys, a key has the item that is the first with it. -/
theorem find?_firsts (xs : List α) (k : κ) :
    (firsts key xs).find? (key · == k) = xs.find? (key · == k) :=
  find?_foldl_note [] xs k

/-! ## Searches -/

/-- Which items are open and which wait after some steps of a search. -/
structure Discovered (key : α → κ) (next : α → List α) (roots opened waiting : List α) : Prop where
  order : opened ++ waiting = firsts key (roots ++ opened.flatMap next)
  mentioned : ∀ earlier x later, opened = earlier ++ x :: later →
    x ∈ roots ++ earlier.flatMap next

namespace Discovered

variable {next : α → List α} {roots opened waiting : List α}

theorem start (next : α → List α) (roots : List α) :
    Discovered key next roots [] (firsts key roots) where
  order := by simp
  mentioned := by simp

/-- The first item that waits is opened, and what it mentions is met. -/
theorem step {x : α} {rest : List α} (h : Discovered key next roots opened (x :: waiting))
    (hrest : opened ++ x :: rest = (next x).foldl (note key) (opened ++ x :: waiting)) :
    Discovered key next roots (opened ++ [x]) rest where
  order := by
    calc opened ++ [x] ++ rest
        = (next x).foldl (note key) (opened ++ x :: waiting) := by simpa using hrest
      _ = firsts key (roots ++ opened.flatMap next ++ next x) := by rw [h.order, ← firsts_append]
      _ = firsts key (roots ++ (opened ++ [x]).flatMap next) := by simp
  mentioned := by
    intro earlier y later hsplit
    rcases List.eq_nil_or_concat later with rfl | ⟨others, z, rfl⟩
    · obtain ⟨rfl, hxy⟩ := List.append_inj' hsplit rfl
      cases hxy
      have hmet : x ∈ opened ++ x :: waiting := List.mem_append_right _ List.mem_cons_self
      exact mem_of_mem_firsts (h.order ▸ hmet)
    · have hopened : opened = earlier ++ y :: others := by
        rw [List.concat_eq_append, ← List.cons_append, ← List.append_assoc] at hsplit
        exact (List.append_inj' hsplit rfl).1
      exact h.mentioned earlier y others hopened

/-- A step of a search that keeps all items met in one list, with a position in it. -/
theorem step_at {met met' : List α} {index : Nat} {x : α}
    (h : Discovered key next roots (met.take index) (met.drop index)) (hx : met[index]? = some x)
    (hmet : met' = (next x).foldl (note key) met) :
    Discovered key next roots (met'.take (index + 1)) (met'.drop (index + 1)) := by
  obtain ⟨hindex, rfl⟩ := List.getElem?_eq_some_iff.1 hx
  have hwaiting : met.drop index = met[index] :: met.drop (index + 1) :=
    List.drop_eq_getElem_cons hindex
  have hopened : met'.take (index + 1) = met.take index ++ [met[index]] := by
    obtain ⟨later, hlater⟩ : met <+: met' := hmet ▸ prefix_foldl_note ..
    rw [← hlater, List.take_append_of_le_length hindex, List.take_succ_eq_append_getElem hindex]
  have hall : met.take index ++ met[index] :: met'.drop (index + 1) = met' := by
    rw [← List.singleton_append, ← List.append_assoc, ← hopened, List.take_append_drop]
  rw [hwaiting] at h
  rw [hopened]
  refine h.step ?_
  rw [hall, ← hwaiting, List.take_append_drop, hmet]

theorem nodup (h : Discovered key next roots opened waiting) :
    ((opened ++ waiting).map key).Nodup :=
  h.order ▸ nodup_firsts _

/-- An open item is the first item with its key that was mentioned. -/
theorem find?_mentioned (h : Discovered key next roots opened waiting) {x : α} (hx : x ∈ opened) :
    (roots ++ opened.flatMap next).find? (key · == key x) = some x := by
  have hnodup := h.nodup
  rw [← find?_firsts, ← h.order]
  obtain ⟨before, after, hsplit⟩ := List.append_of_mem (List.mem_append_left waiting hx)
  rw [hsplit, List.map_append, List.nodup_append'] at hnodup
  have hbefore : before.find? (key · == key x) = none := by
    rw [List.find?_eq_none]
    intro y hy heq
    exact hnodup.2.2 (List.mem_map_of_mem hy) (by simp [eq_of_beq heq])
  rw [hsplit, List.find?_append, hbefore, Option.none_or, List.find?_cons_of_pos (by simp)]

theorem mem_keys_iff (h : Discovered key next roots opened waiting) {k : κ} :
    k ∈ (opened ++ waiting).map key ↔ k ∈ (roots ++ opened.flatMap next).map key := by
  rw [h.order, mem_keys_firsts]

theorem root_mem (h : Discovered key next roots opened waiting) {x : α} (hx : x ∈ roots) :
    key x ∈ (opened ++ waiting).map key :=
  h.mem_keys_iff.2 (List.mem_map_of_mem (List.mem_append_left _ hx))

theorem next_mem (h : Discovered key next roots opened waiting) {x y : α} (hx : x ∈ opened)
    (hy : y ∈ next x) : key y ∈ (opened ++ waiting).map key :=
  h.mem_keys_iff.2
    (List.mem_map_of_mem (List.mem_append_right _ (List.mem_flatMap.2 ⟨x, hx, hy⟩)))

theorem head?_eq (h : Discovered key next roots opened waiting) :
    (opened ++ waiting).head? = (roots ++ opened.flatMap next).head? := by
  rw [h.order, head?_firsts]

/-- Every item met has a property that the first ones have and that goes on to what is mentioned. -/
theorem of_closed (h : Discovered key next roots opened waiting) {P : α → Prop}
    (hroots : ∀ x ∈ roots, P x) (hnext : ∀ x ∈ opened, P x → ∀ y ∈ next x, P y) :
    ∀ x ∈ opened ++ waiting, P x := by
  -- Open items were mentioned by earlier ones, so the induction goes over initial parts of them.
  have hopened : ∀ earlier, earlier <+: opened → ∀ x ∈ earlier, P x := by
    intro earlier
    induction earlier using List.reverseRecOn with
    | nil => simp
    | append_singleton earlier y ih =>
      rintro ⟨later, hsplit⟩ x hx
      have hearlier : earlier <+: opened := ⟨y :: later, by simpa using hsplit⟩
      rcases List.mem_append.1 hx with hx | hx
      · exact ih hearlier x hx
      · rw [List.mem_singleton.1 hx]
        rcases List.mem_append.1 (h.mentioned earlier y later (by simpa using hsplit.symm)) with
          hy | hy
        · exact hroots y hy
        · obtain ⟨z, hz, hy⟩ := List.mem_flatMap.1 hy
          exact hnext z (hearlier.mem hz) (ih hearlier z hz) y hy
  intro x hx
  rcases List.mem_append.1 (mem_of_mem_firsts (h.order ▸ hx)) with hx | hx
  · exact hroots x hx
  · obtain ⟨z, hz, hx⟩ := List.mem_flatMap.1 hx
    exact hnext z hz (hopened opened List.prefix_rfl z hz) x hx

/-- What the first open items made known are the first of the items met. -/
theorem firsts_isPrefix (h : Discovered key next roots opened waiting) {earlier : List α}
    (hearlier : earlier <+: opened) :
    firsts key (roots ++ earlier.flatMap next) <+: opened ++ waiting := by
  obtain ⟨later, rfl⟩ := hearlier
  rw [h.order, List.flatMap_append, ← List.append_assoc,
    firsts_append (roots ++ earlier.flatMap next)]
  exact prefix_foldl_note ..

/-- Two searches from the same items open them in the same order. -/
theorem opened_isPrefix {opened' waiting' : List α} (h : Discovered key next roots opened waiting)
    (h' : Discovered key next roots opened' waiting') (hlength : opened.length ≤ opened'.length) :
    opened <+: opened' := by
  have hearlier : ∀ earlier, earlier <+: opened → earlier <+: opened' := by
    intro earlier
    induction earlier using List.reverseRecOn with
    | nil => simp
    | append_singleton earlier x ih =>
      intro hx
      have hearlier : earlier <+: opened := (List.prefix_append ..).trans hx
      have hmet : earlier ++ [x] <+: opened ++ waiting := hx.trans (List.prefix_append ..)
      have hnew : key x ∉ earlier.map key := by
        have hnodup := h.nodup
        obtain ⟨later, hlater⟩ := hmet
        rw [← hlater, List.map_append, List.nodup_append', List.map_append, List.nodup_append']
          at hnodup
        simpa [List.disjoint_singleton] using hnodup.1.2.2
      have hmade : key x ∈ (firsts key (roots ++ earlier.flatMap next)).map key := by
        obtain ⟨later, hlater⟩ := hx
        exact mem_keys_firsts.2
          (List.mem_map_of_mem (h.mentioned earlier x later (by simpa using hlater.symm)))
      -- Of two initial parts one is shorter; the items made known are not, since `x` is one.
      have hknown : earlier ++ [x] <+: firsts key (roots ++ earlier.flatMap next) := by
        rcases List.prefix_or_prefix_of_prefix hmet (h.firsts_isPrefix hearlier) with hle | hle
        · exact hle
        · rcases List.prefix_concat_iff.1 hle with heq | hle
          · exact heq ▸ List.prefix_rfl
          · exact absurd ((hle.map key).mem hmade) hnew
      have hmet' := hknown.trans (h'.firsts_isPrefix (ih hearlier))
      exact List.prefix_of_prefix_length_le hmet' (List.prefix_append ..)
        (hx.length_le.trans hlength)
  exact hearlier opened List.prefix_rfl

/-- Nothing can be opened when nothing waits. -/
theorem eq_of_isPrefix {opened' waiting' : List α} (h : Discovered key next roots opened [])
    (h' : Discovered key next roots opened' waiting') (hinitial : opened <+: opened') :
    opened = opened' := by
  obtain ⟨later, rfl⟩ := hinitial
  cases later with
  | nil => simp
  | cons x later =>
    have hmet : key x ∈ opened.map key := by
      have hmade := List.mem_map_of_mem (f := key) (h'.mentioned opened x later rfl)
      simpa using h.mem_keys_iff.2 hmade
    have hnodup := h'.nodup
    rw [List.append_assoc, List.map_append, List.nodup_append'] at hnodup
    exact absurd (by simp) (hnodup.2.2 hmet)

/-- Searches that came to their ends opened the same items in the same order. -/
theorem opened_unique {opened' : List α} (h : Discovered key next roots opened [])
    (h' : Discovered key next roots opened' []) : opened = opened' := by
  rcases Nat.le_total opened.length opened'.length with hle | hle
  · exact h.eq_of_isPrefix h' (h.opened_isPrefix h' hle)
  · exact (h'.eq_of_isPrefix h (h'.opened_isPrefix h hle)).symm

end Discovered

end SoapKit
