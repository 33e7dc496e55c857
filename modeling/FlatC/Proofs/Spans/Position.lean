import FlatC.Position
import FlatC.Proofs.Syntax.Lines

/-!
# What a line and a column say

A position names one place in a text: `Position.Locates ls pos b` says that the byte `b` stands in
front of the character `pos.column` of the line `pos.line`, and that the position shows that line.
`Position.ofOffset` gives the position of the last character boundary that an offset reaches
(`boundary`), and reading order is the order of lines and columns (`Position.ofOffset_locates`).
-/

namespace FlatC

/-- The lines of a text, without their line breaks. -/
def lines (cs : List Char) : List (List Char) := cs.splitOn '\n'

theorem lines_newline (cs : List Char) : lines ('\n' :: cs) = [] :: lines cs := by
  simp [lines, List.splitOn, List.splitOnP_cons_eq_if_modifyHead]

theorem lines_cons {c : Char} (h : c ≠ '\n') (cs : List Char) :
    lines (c :: cs) = (lines cs).modifyHead (c :: ·) := by
  simp [lines, List.splitOn, List.splitOnP_cons_eq_if_modifyHead, h]

/-- The first line ends at the first line break. -/
theorem exists_lines (cs : List Char) : ∃ ls, lines cs = cs.takeWhile (· != '\n') :: ls := by
  induction cs with
  | nil => exact ⟨[], rfl⟩
  | cons c cs ih =>
    obtain ⟨ls, hls⟩ := ih
    by_cases hc : c = '\n'
    · subst hc
      exact ⟨lines cs, by simp [lines_newline]⟩
    · exact ⟨ls, by simp [lines_cons hc, hls, hc]⟩

/-- The bytes of the first `n` lines with their line breaks. -/
def lineStart (ls : List (List Char)) (n : Nat) : Nat :=
  ((ls.take n).map (byteLength · + 1)).sum

@[simp] theorem lineStart_zero (ls : List (List Char)) : lineStart ls 0 = 0 := by
  simp [lineStart]

@[simp] theorem lineStart_cons (l : List Char) (ls : List (List Char)) (n : Nat) :
    lineStart (l :: ls) (n + 1) = byteLength l + 1 + lineStart ls n := by
  simp [lineStart]

/-- A line starts behind those before it. -/
theorem lineStart_add_lt {ls : List (List Char)} {n m : Nat} {l : List Char} (hl : ls[n]? = some l)
    (h : n < m) : lineStart ls n + byteLength l < lineStart ls m := by
  induction ls generalizing n m with
  | nil => cases hl
  | cons x ls ih =>
    obtain ⟨m, rfl⟩ : ∃ k, m = k + 1 := ⟨m - 1, by omega⟩
    cases n with
    | zero =>
      cases hl
      simp only [lineStart_zero, lineStart_cons]
      omega
    | succ n =>
      have := ih hl (Nat.lt_of_succ_lt_succ h)
      simp only [lineStart_cons]
      omega

/-- More characters take more bytes. -/
theorem byteLength_take_lt {l : List Char} {i j : Nat} (h : i < j) (hj : j ≤ l.length) :
    byteLength (l.take i) < byteLength (l.take j) := by
  induction l generalizing i j with
  | nil => simp at hj; omega
  | cons c l ih =>
    obtain ⟨j, rfl⟩ : ∃ k, j = k + 1 := ⟨j - 1, by omega⟩
    have hc := c.utf8Size_pos
    cases i with
    | zero => simp; omega
    | succ i =>
      have := ih (Nat.lt_of_succ_lt_succ h) (by simpa using hj)
      simpa using this

theorem byteLength_take_le (l : List Char) (i : Nat) : byteLength (l.take i) ≤ byteLength l := by
  conv_rhs => rw [← List.take_append_drop i l, byteLength_append]
  exact Nat.le_add_right _ _

/-! ## Character boundaries -/

/-- The bytes that `splitBytes` cuts off fit. -/
theorem byteLength_splitBytes_le (n : Nat) (cs : List Char) :
    byteLength (splitBytes n cs).1 ≤ n := by
  induction cs generalizing n with
  | nil => exact Nat.zero_le n
  | cons c cs ih =>
    unfold splitBytes
    split
    next h =>
      have := ih (n - c.utf8Size)
      simp only [byteLength_cons]
      omega
    next => exact Nat.zero_le n

/-- Nothing more fits. -/
theorem byteLength_le_splitBytes {n : Nat} {w cs : List Char} (hw : w <+: cs)
    (hn : byteLength w ≤ n) : byteLength w ≤ byteLength (splitBytes n cs).1 := by
  induction cs generalizing n w with
  | nil => simp [List.prefix_nil.1 hw]
  | cons c cs ih =>
    cases w with
    | nil => exact Nat.zero_le _
    | cons d w =>
      obtain ⟨rfl, hrest⟩ := List.cons_prefix_cons.1 hw
      rw [byteLength_cons] at hn
      have hd : d.utf8Size ≤ n := by omega
      have hroom : byteLength w ≤ n - d.utf8Size := by omega
      have := ih hrest hroom
      rw [splitBytes, if_pos hd]
      simp only [byteLength_cons]
      omega

/-- The last character boundary that an offset reaches. -/
def boundary (source : String) (offset : Nat) : Nat :=
  byteLength (splitBytes offset source.toList).1

theorem isValid_iff {source : String} {b : Nat} :
    String.Pos.Raw.IsValid source ⟨b⟩ ↔ ∃ w, w <+: source.toList ∧ byteLength w = b := by
  rw [String.Pos.Raw.isValid_iff_exists_append]
  constructor
  · rintro ⟨s, s', rfl, hb⟩
    refine ⟨s.toList, by simp, ?_⟩
    rw [byteLength_toList, ← String.byteIdx_rawEndPos, ← hb]
  · rintro ⟨w, ⟨w', hw⟩, rfl⟩
    refine ⟨String.ofList w, String.ofList w', ?_, ?_⟩
    · rw [← String.ofList_append, hw, String.ofList_toList]
    · rw [String.Pos.Raw.ext_iff, String.byteIdx_rawEndPos, ← byteLength_toList,
        String.toList_ofList]

/-- `b` is the greatest character boundary up to an offset, or up to the end of the text. -/
structure IsBoundary (source : String) (offset b : Nat) : Prop where
  valid : String.Pos.Raw.IsValid source ⟨b⟩
  le : b ≤ min offset source.utf8ByteSize
  greatest : ∀ b', String.Pos.Raw.IsValid source ⟨b'⟩ → b' ≤ min offset source.utf8ByteSize → b' ≤ b

theorem isBoundary_boundary (source : String) (offset : Nat) :
    IsBoundary source offset (boundary source offset) := by
  have hprefix : (splitBytes offset source.toList).1 <+: source.toList :=
    ⟨_, splitBytes_append offset source.toList⟩
  refine ⟨isValid_iff.2 ⟨_, hprefix, rfl⟩, Nat.le_min.2 ⟨byteLength_splitBytes_le _ _, ?_⟩, ?_⟩
  · rw [← byteLength_toList]
    conv_rhs => rw [← splitBytes_append offset source.toList, byteLength_append]
    exact Nat.le_add_right _ _
  · intro b' hvalid hb'
    obtain ⟨w, hw, rfl⟩ := isValid_iff.1 hvalid
    exact byteLength_le_splitBytes hw (Nat.le_min.1 hb').1

/-! ## Places in a text -/

namespace Position

/-- Among the lines `ls`, the position is that of the byte `b`. -/
structure Locates (ls : List (List Char)) (pos : Position) (b : Nat) : Prop where
  line : 1 ≤ pos.line ∧ pos.line ≤ ls.length
  content : ls[pos.line - 1]? = some pos.content.toList
  column : 1 ≤ pos.column ∧ pos.column - 1 ≤ pos.content.length
  offset : b = lineStart ls (pos.line - 1) +
    byteLength (pos.content.toList.take (pos.column - 1))

/-- The position stands in front of another one, in the order of reading. -/
def Before (p q : Position) : Prop := p.line < q.line ∨ p.line = q.line ∧ p.column < q.column

section Order

variable {ls : List (List Char)} {p q : Position} {b c : Nat}

theorem Locates.lt (hp : p.Locates ls b) (hq : q.Locates ls c) (h : p.Before q) : b < c := by
  have hlen := hq.column.2
  rw [← String.length_toList] at hlen
  rcases h with hline | ⟨hline, hcolumn⟩
  · have hstart := lineStart_add_lt hp.content (m := q.line - 1) (by have := hp.line; omega)
    have hbytes := byteLength_take_le p.content.toList (p.column - 1)
    rw [hp.offset, hq.offset]
    omega
  · have hcontent : p.content.toList = q.content.toList :=
      Option.some.inj (hp.content.symm.trans (hline ▸ hq.content))
    have hbytes := byteLength_take_lt (l := q.content.toList) (i := p.column - 1)
      (j := q.column - 1) (by have := hp.column; omega) hlen
    rw [hp.offset, hq.offset, hline, hcontent]
    omega

/-- What has the same line and column has the same offset. -/
theorem Locates.unique (hp : p.Locates ls b) (hq : q.Locates ls c) (hline : p.line = q.line)
    (hcolumn : p.column = q.column) : b = c := by
  have hcontent : p.content.toList = q.content.toList :=
    Option.some.inj (hp.content.symm.trans (hline ▸ hq.content))
  rw [hp.offset, hq.offset, hline, hcolumn, hcontent]

/-- Offsets are in the order of their positions. -/
theorem Locates.lt_iff (hp : p.Locates ls b) (hq : q.Locates ls c) : b < c ↔ p.Before q := by
  refine ⟨fun hlt => ?_, hp.lt hq⟩
  by_cases h : p.Before q
  · exact h
  · unfold Before at h
    have hback : q.Before p ∨ p.line = q.line ∧ p.column = q.column := by
      unfold Before
      omega
    rcases hback with h | ⟨hline, hcolumn⟩
    · have := hq.lt hp h
      omega
    · have := hp.unique hq hline hcolumn
      omega

end Order

/-! ## The position between two texts -/

/-- The last line of a text, as far as it goes. -/
def indent (cs : List Char) : List Char := (cs.reverse.takeWhile (· != '\n')).reverse

theorem indent_of_not_mem {cs : List Char} (h : '\n' ∉ cs) : indent cs = cs := by
  have hall : cs.reverse.takeWhile (· != '\n') = cs.reverse := by
    rw [List.takeWhile_eq_self_iff]
    intro c hc
    rw [bne_iff_ne]
    rintro rfl
    exact h (List.mem_reverse.1 hc)
  rw [indent, hall, List.reverse_reverse]

/-- What stands in front of a line break does not count. -/
theorem indent_cons {c : Char} {cs : List Char} (h : c = '\n' ∨ '\n' ∈ cs) :
    indent (c :: cs) = indent cs := by
  by_cases hcs : '\n' ∈ cs
  · have hshort : ¬ (cs.reverse.takeWhile (· != '\n')).length = cs.reverse.length := by
      intro hlen
      have hall := List.takeWhile_eq_self_iff.1
        ((List.takeWhile_prefix (· != '\n')).eq_of_length hlen)
      simpa using hall '\n' (List.mem_reverse.2 hcs)
    rw [indent, List.reverse_cons, List.takeWhile_append, if_neg hshort, indent]
  · obtain rfl := h.resolve_right hcs
    have hall : cs.reverse.takeWhile (· != '\n') = cs.reverse := by
      have := indent_of_not_mem hcs
      rwa [indent, List.reverse_eq_iff] at this
    rw [indent, List.reverse_cons, List.takeWhile_append, if_pos (congrArg _ hall), indent, hall]
    simp

section Steps

variable {ls : List (List Char)} {l : List Char} {pos : Position} {b : Nat}

/-- A line break in front of a text. -/
theorem Locates.newline (h : pos.Locates ls b) :
    { pos with line := pos.line + 1 : Position }.Locates ([] :: ls) (1 + b) := by
  obtain ⟨k, hk⟩ : ∃ k, pos.line = k + 1 := ⟨pos.line - 1, by have := h.line; omega⟩
  have hoffset := h.offset
  rw [hk, Nat.add_sub_cancel] at hoffset
  refine ⟨⟨by simp, by simpa using h.line.2⟩, ?_, h.column, ?_⟩
  · simpa [hk] using h.content
  · simp [hk, hoffset, Nat.add_assoc]

/-- A character in front of the first line moves the other lines. -/
theorem Locates.later (h : pos.Locates (l :: ls) b) (hline : 1 < pos.line) (c : Char) :
    pos.Locates ((c :: l) :: ls) (c.utf8Size + b) := by
  obtain ⟨k, hk⟩ : ∃ k, pos.line = k + 2 := ⟨pos.line - 2, by omega⟩
  have hoffset := h.offset
  rw [hk, show k + 2 - 1 = k + 1 from rfl, lineStart_cons] at hoffset
  refine ⟨⟨h.line.1, by simpa using h.line.2⟩, ?_, h.column, ?_⟩
  · simpa [hk] using h.content
  · rw [hk, show k + 2 - 1 = k + 1 from rfl, lineStart_cons, byteLength_cons, hoffset]
    omega

end Steps

theorem between_eq (before after : List Char) :
    between before after = ⟨before.count '\n' + 1, (indent before).length + 1,
      String.ofList (indent before ++ after.takeWhile (· != '\n'))⟩ := rfl

/-- In front of the first line break. -/
theorem between_first {before : List Char} (h : '\n' ∉ before) (after : List Char) :
    (between before after).Locates (lines (before ++ after)) (byteLength before) := by
  obtain ⟨ls, hls⟩ := exists_lines (before ++ after)
  have hall : ∀ c ∈ before, (c != '\n') = true := by
    intro c hc
    rw [bne_iff_ne]
    rintro rfl
    exact h hc
  rw [List.takeWhile_append_of_pos hall] at hls
  rw [between_eq, List.count_eq_zero.2 h, indent_of_not_mem h, hls]
  exact ⟨⟨Nat.le_refl 1, by simp⟩, by simp, by simp, by simp⟩

/-- **The position between two texts is that of the first byte of the second**, among the lines of
both. -/
theorem between_locates (before after : List Char) :
    (between before after).Locates (lines (before ++ after)) (byteLength before) := by
  -- the first line break is the base; in front of it, a character moves the lines behind it
  induction before with
  | nil => exact between_first (by simp) after
  | cons c before ih =>
    by_cases hmem : '\n' ∈ c :: before
    · by_cases hc : c = '\n'
      · subst hc
        rw [List.cons_append, lines_newline, between_eq, indent_cons (.inl rfl), List.count_cons_self]
        exact ih.newline
      · have hbefore : '\n' ∈ before := (List.mem_cons.1 hmem).resolve_left (Ne.symm hc)
        obtain ⟨ls, hls⟩ := exists_lines (before ++ after)
        rw [hls] at ih
        have hlater := ih.later (Nat.succ_lt_succ (List.count_pos_iff.2 hbefore)) c
        rw [List.cons_append, lines_cons hc, hls, between_eq, indent_cons (.inr hbefore),
          List.count_cons_of_ne hc]
        exact hlater
    · exact between_first hmem after

/-- **Line and column identify the position.** For every offset they are those of the last character
boundary that it reaches, and the order of these boundaries is the order of lines and columns. -/
theorem ofOffset_locates (source : String) :
    (∀ offset, IsBoundary source offset (boundary source offset) ∧
      (ofOffset source offset).Locates (lines source.toList) (boundary source offset)) ∧
    ∀ i j, (boundary source i < boundary source j ↔
        (ofOffset source i).Before (ofOffset source j)) ∧
      (boundary source i ≠ boundary source j →
        ((ofOffset source i).line, (ofOffset source i).column) ≠
          ((ofOffset source j).line, (ofOffset source j).column)) := by
  have hlocates : ∀ offset,
      (ofOffset source offset).Locates (lines source.toList) (boundary source offset) := by
    intro offset
    have := between_locates (splitBytes offset source.toList).1 (splitBytes offset source.toList).2
    rwa [splitBytes_append] at this
  refine ⟨fun offset => ⟨isBoundary_boundary source offset, hlocates offset⟩, fun i j => ?_⟩
  refine ⟨(hlocates i).lt_iff (hlocates j), fun hne heq => hne ?_⟩
  obtain ⟨hline, hcolumn⟩ := Prod.mk.inj heq
  exact (hlocates i).unique (hlocates j) hline hcolumn

/-- A line break, a character of two bytes, and an offset inside it. -/
example : ofOffset "a\nbé;" 4 = ⟨2, 2, "bé;"⟩ ∧ boundary "a\nbé;" 4 = 3 := by decide

end Position

end FlatC
