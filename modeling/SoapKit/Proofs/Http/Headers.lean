import SoapKit.Http.Headers
import SoapKit.Proofs.Text.Trimming

/-!
# Written headers read back

A header is written on a line of its own: its name, a colon and a space, its value. When names and
values have no blanks around them and no line breaks in them, and no name can be taken for a status
line, reading the lines gives the headers back (`read_lines`).
-/

namespace SoapKit

namespace Text

/-! ## Lines -/

theorem pieces_ne_nil (mark : Char) (s : List Char) : pieces mark s ≠ [] := by
  cases s with
  | nil => simp [pieces]
  | cons c rest =>
    rw [pieces]
    split
    · simp
    · split <;> simp

theorem pieces_of_not_mem {mark : Char} {s : List Char} (h : mark ∉ s) : pieces mark s = [s] := by
  induction s with
  | nil => rfl
  | cons c rest ih =>
    rw [List.mem_cons, not_or] at h
    rw [pieces, if_neg (Ne.symm h.1), ih h.2]

theorem pieces_append {mark : Char} {s : List Char} (rest : List Char) (h : mark ∉ s) :
    pieces mark (s ++ mark :: rest) = s :: pieces mark rest := by
  induction s with
  | nil => rw [List.nil_append, pieces, if_pos rfl]
  | cons c more ih =>
    rw [List.mem_cons, not_or] at h
    rw [List.cons_append, pieces, if_neg (Ne.symm h.1), ih h.2]

theorem exists_headD_pieces {mark c : Char} (h : c ≠ mark) (s : List Char) :
    ∃ first, (pieces mark (c :: s)).headD [] = c :: first := by
  rw [pieces, if_neg h]
  split
  · exact ⟨[], rfl⟩
  · exact ⟨_, rfl⟩

theorem lines_of_not_mem {s : List Char} (hs : s ≠ []) (h : '\n' ∉ s) :
    lines (String.ofList s) = [String.ofList s] := by
  simp [lines, String.toList_ofList, pieces_of_not_mem h, hs]

/-- A line that ends in a carriage return and a line feed comes before the lines after it. -/
theorem lines_append {s : List Char} (rest : List Char) (h : '\n' ∉ s) :
    lines (String.ofList (s ++ '\r' :: '\n' :: rest)) =
      String.ofList s :: lines (String.ofList rest) := by
  have hmark : '\n' ∉ s ++ ['\r'] := by simp [h]
  have hpieces : pieces '\n' (s ++ '\r' :: '\n' :: rest) = (s ++ ['\r']) :: pieces '\n' rest := by
    rw [← pieces_append rest hmark, List.append_assoc, List.singleton_append]
  have hreturn : lines.dropReturn (s ++ ['\r']) = s := by simp [lines.dropReturn]
  obtain ⟨first, others, hrest⟩ := List.exists_cons_of_ne_nil (pieces_ne_nil '\n' rest)
  simp [lines, String.toList_ofList, hpieces, hrest, hreturn]

end Text

namespace Http.Headers

/-! ## Headers that can stand on lines -/

/-- A name and a value that stand on a line of their own and are read from it as they are. -/
structure IsLine (name value : String) : Prop where
  nonempty : name ≠ ""
  name_trimmed : Text.trimmed name = name
  value_trimmed : Text.trimmed value = value
  colon : ':' ∉ name.toList
  name_breaks : '\r' ∉ name.toList ∧ '\n' ∉ name.toList
  value_breaks : '\r' ∉ value.toList ∧ '\n' ∉ value.toList
  /-- The name does not make the line a status line. -/
  status : ¬"HTTP/".toList <+: name.toList

/-- The line of a header. -/
def line (entry : String × String) : String :=
  entry.1 ++ ": " ++ entry.2

theorem toList_line (entry : String × String) :
    (line entry).toList = entry.1.toList ++ ':' :: ' ' :: entry.2.toList := by
  simp [line]

theorem trim_toList {s : String} (h : Text.trimmed s = s) : Text.trim s.toList = s.toList := by
  have := congrArg String.toList h
  rwa [Text.trimmed, String.toList_ofList] at this

namespace IsLine

variable {name value : String}

theorem not_mem_line (h : IsLine name value) :
    '\r' ∉ (line (name, value)).toList ∧ '\n' ∉ (line (name, value)).toList := by
  simp [toList_line, h.name_breaks, h.value_breaks]

/-- The first character of a name. -/
theorem exists_cons (h : IsLine name value) :
    ∃ c rest, name.toList = c :: rest ∧ Text.isBlank c = false := by
  obtain ⟨c, rest, hname⟩ := List.exists_cons_of_ne_nil (l := name.toList)
    (by simpa using h.nonempty)
  have htrim := trim_toList h.name_trimmed
  rw [hname] at htrim
  exact ⟨c, rest, hname, Text.isBlank_of_trim_eq htrim⟩

theorem not_status (h : IsLine name value) :
    Text.after? "HTTP/".toList (line (name, value)).toList = none := by
  have hlead : ¬"HTTP/".toList <+: (line (name, value)).toList := by
    rw [toList_line, Text.prefix_append_cons_iff (by decide)]
    exact h.status
  rw [Text.after?, if_neg]
  simpa using hlead

theorem takeLine_line (h : IsLine name value) (entries : List (String × String)) :
    takeLine entries (line (name, value)) = entries ++ [(name, value)] := by
  obtain ⟨c, rest, hname, hc⟩ := h.exists_cons
  have hkept : String.ofList ((line (name, value)).toList.reverse.dropWhile (· == '\r')).reverse =
      line (name, value) := by
    rw [Text.dropWhile_of_stopsAt, List.reverse_reverse, String.ofList_toList]
    intro d hd
    have hmem : d ∈ (line (name, value)).toList := List.mem_reverse.1 (List.mem_of_mem_head? hd)
    have hreturn : d ≠ '\r' := by
      rintro rfl
      exact h.not_mem_line.1 hmem
    simpa using hreturn
  have hblank : Text.isAllBlank (line (name, value)) = false := by
    simp [Text.isAllBlank, toList_line, hname, hc]
  have hindent :
      ((line (name, value)).toList.head?.any fun d => d == ' ' || d == '\t') = false := by
    have hspace : c ≠ ' ' := by
      rintro rfl
      exact absurd hc (by decide)
    have htab : c ≠ '\t' := by
      rintro rfl
      exact absurd hc (by decide)
    simp [toList_line, hname, hspace, htab]
  have hsplit : Text.splitOnce ':' (line (name, value)).toList =
      some (name.toList, ' ' :: value.toList) := by
    rw [toList_line, Text.splitOnce_append _ h.colon]
  have hvalue : Text.trim (' ' :: value.toList) = value.toList := by
    rw [Text.trim, Text.trimStart_cons_of_blank (by decide), ← Text.trim,
      trim_toList h.value_trimmed]
  unfold takeLine
  simp only [hkept, hblank, hindent, hsplit, hvalue, h.not_status, trim_toList h.name_trimmed,
    Option.isSome_none, Bool.or_false, Bool.false_eq_true, if_false, String.ofList_toList]

end IsLine

/-! ## Lists of headers -/

variable {entries : List (String × String)}

/-- Headers on lines, with a line break between them. -/
def lines (entries : List (String × String)) : List Char :=
  ['\r', '\n'].intercalate (entries.map fun entry => (line entry).toList)

theorem lines_cons (entry next : String × String) (rest : List (String × String)) :
    lines (entry :: next :: rest) =
      (line entry).toList ++ '\r' :: '\n' :: lines (next :: rest) := by
  simp [lines, List.intercalate]

theorem textLines_lines (h : ∀ entry ∈ entries, IsLine entry.1 entry.2) :
    Text.lines (String.ofList (lines entries)) = entries.map line := by
  induction entries with
  | nil => rfl
  | cons entry rest ih =>
    rw [List.forall_mem_cons] at h
    have hbreak := h.1.not_mem_line.2
    cases rest with
    | nil =>
      have hnonempty : (line entry).toList ≠ [] := by simp [toList_line]
      simpa [lines] using Text.lines_of_not_mem hnonempty hbreak
    | cons next rest =>
      rw [lines_cons, Text.lines_append _ hbreak, String.ofList_toList, ih h.2]
      rfl

theorem foldl_takeLine (h : ∀ entry ∈ entries, IsLine entry.1 entry.2)
    (taken : List (String × String)) :
    (entries.map line).foldl takeLine taken = taken ++ entries := by
  induction entries generalizing taken with
  | nil => simp
  | cons entry rest ih =>
    rw [List.forall_mem_cons] at h
    rw [List.map_cons, List.foldl_cons, h.1.takeLine_line, ih h.2, List.append_assoc]
    rfl

/-- Headers are read from their lines as they are. -/
theorem read_lines (h : ∀ entry ∈ entries, IsLine entry.1 entry.2) :
    read (String.ofList (lines entries)) = ⟨entries⟩ := by
  rw [read, textLines_lines h, foldl_takeLine h, List.nil_append]

end Http.Headers

end SoapKit
