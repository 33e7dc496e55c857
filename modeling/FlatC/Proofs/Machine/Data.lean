import FlatC.Proofs.Machine.Basic

/-!
# Labels and what they stand for

If no label is defined twice, a label in the text section stands for the item where it is defined
(`Machine.position?_eq`), and one in the data section for the datum behind it
(`Machine.address?_eq`). The data of a file do not overlap.
-/

namespace FlatC

/-- The room of a datum starts at its address. -/
theorem Entry.le_of_hasRoom {x : Entry} {a : Int} (h : x.hasRoom a = true) : x.address ≤ a := by
  unfold hasRoom at h
  split at h
  · simp only [Bool.and_eq_true, decide_eq_true_eq] at h
    exact h.1
  · cases h

namespace Code

variable {c : Code} {a : Int}

/-- A label is defined at one place. -/
theorem index_unique {is : Code} (h : is.labels.Nodup) {i j : Nat} {x y : Item} {l : String}
    (hi : is[i]? = some x) (hj : is[j]? = some y) (hx : x.defined? = some l)
    (hy : y.defined? = some l) : i = j := by
  induction is generalizing i j with
  | nil => simp at hi
  | cons z is ih =>
    have hrest : (labels is).Nodup := by
      unfold labels at h
      rw [List.filterMap_cons] at h
      split at h
      · exact h
      · exact h.of_cons
    -- a label that is defined at the head is not defined behind it
    have hfresh : ∀ {k : Nat} {u : Item}, is[k]? = some u → u.defined? = some l →
        z.defined? ≠ some l := by
      intro k u hk hu hz
      unfold labels at h
      rw [List.filterMap_cons, hz] at h
      exact (List.nodup_cons.1 h).1 (List.mem_filterMap.2 ⟨u, List.mem_of_getElem? hk, hu⟩)
    cases i with
    | zero =>
      cases j with
      | zero => rfl
      | succ j =>
        cases hi
        exact absurd hx (hfresh hj hy)
    | succ i =>
      cases j with
      | zero =>
        cases hj
        exact absurd hy (hfresh hi hx)
      | succ j => rw [ih hrest hi hj]

theorem exists_entry {l : String} {d : Datum} (h : Item.datum l d ∈ c) :
    ∃ x ∈ c.data a, x.label = l ∧ x.datum = d := by
  induction c generalizing a with
  | nil => cases h
  | cons z is ih =>
    obtain rfl | his := List.mem_cons.1 h
    · exact ⟨⟨l, a, d⟩, .head _, rfl, rfl⟩
    · cases z with
      | datum l' d' =>
        obtain ⟨x, hx, hl⟩ := ih his (a := a + d'.size)
        exact ⟨x, .tail _ hx, hl⟩
      | _ => exact ih his

theorem le_roundUp (a : Int) (bits : Nat) : a ≤ roundUp a bits := by
  have : 0 ≤ (-a) % 2 ^ bits := Int.emod_nonneg _ (Int.pow_ne_zero (by decide))
  unfold roundUp
  omega

theorem dvd_roundUp (a : Int) (bits : Nat) : (2 ^ bits : Int) ∣ roundUp a bits := by
  have := Int.emod_add_mul_ediv (-a) (2 ^ bits)
  refine ⟨-((-a) / 2 ^ bits), ?_⟩
  unfold roundUp
  rw [Int.mul_neg]
  omega

/-- The data follow each other from the first address on. -/
theorem data_pairwise (a : Int) (c : Code) :
    (∀ x ∈ c.data a, a ≤ x.address) ∧
      (c.data a).Pairwise fun x y : Entry => x.address + x.datum.size ≤ y.address := by
  induction c generalizing a with
  | nil => exact ⟨nofun, .nil⟩
  | cons z is ih =>
    cases z with
    | align bits =>
      obtain ⟨hle, hpair⟩ := ih (roundUp a bits)
      exact ⟨fun x hx => Int.le_trans (le_roundUp a bits) (hle x hx), hpair⟩
    | datum l d =>
      obtain ⟨hle, hpair⟩ := ih (a + d.size)
      refine ⟨fun x hx => ?_, .cons hle hpair⟩
      obtain rfl | hx := List.mem_cons.1 hx
      · exact Int.le_refl _
      · have := hle x hx
        omega
    | _ => exact ih a

theorem data_append (a : Int) (c c' : Code) : ∃ a', data a (c ++ c') = data a c ++ data a' c' := by
  induction c generalizing a with
  | nil => exact ⟨a, rfl⟩
  | cons z is ih =>
    cases z with
    | align bits => exact ih (roundUp a bits)
    | datum l d =>
      obtain ⟨a', h⟩ := ih (a + d.size)
      exact ⟨a', congrArg (List.cons _) h⟩
    | _ => exact ih a

theorem labels_data_sublist (a : Int) (c : Code) :
    ((c.data a).map Entry.label).Sublist c.labels := by
  induction c generalizing a with
  | nil => exact .slnil
  | cons z is ih =>
    cases z with
    | align bits => exact ih (roundUp a bits)
    | datum l d => exact (ih (a + d.size)).cons_cons l
    | label l => exact (ih a).cons l
    | _ => exact ih a

end Code

namespace Machine

variable {m : Machine}

/-- A label of the text section stands for the item where it is defined. -/
theorem position?_eq (h : m.code.labels.Nodup) {k : Nat} {l : String}
    (hk : m.code[k]? = some (.label l)) : m.position? l = some k := by
  obtain ⟨hlt, hget⟩ := List.getElem?_eq_some_iff.1 hk
  rw [position?, List.findIdx?_eq_some_iff_getElem]
  refine ⟨hlt, by simp [hget], fun j hj heq => ?_⟩
  have hj' : m.code[j]? = some (.label l) := by
    rw [List.getElem?_eq_getElem (Nat.lt_trans hj hlt)]
    simpa using heq
  have := Code.index_unique h hj' hk rfl rfl
  omega

theorem label_inj (h : m.code.labels.Nodup) {x y : Entry} (hx : x ∈ m.data) (hy : y ∈ m.data)
    (hl : x.label = y.label) : x = y :=
  List.inj_on_of_nodup_map (h.sublist (Code.labels_data_sublist _ _)) hx hy hl

/-- A label of the data section stands for the datum behind it. -/
theorem address?_eq (h : m.code.labels.Nodup) {x : Entry} (hx : x ∈ m.data) :
    m.address? x.label = some x.address := by
  have hsome : (m.data.find? (·.label == x.label)).isSome := by
    rw [List.find?_isSome]
    exact ⟨x, hx, by simp⟩
  obtain ⟨y, hy⟩ := Option.isSome_iff_exists.1 hsome
  have hlabel : y.label = x.label := by simpa using List.find?_some hy
  rw [address?, hy, label_inj h (List.mem_of_find?_eq_some hy) hx hlabel]
  rfl

theorem dataStart_le {x : Entry} (hx : x ∈ m.data) : m.dataStart ≤ x.address :=
  (Code.data_pairwise _ _).1 x hx

/-- The data do not overlap. -/
theorem data_apart {x y : Entry} (hx : x ∈ m.data) (hy : y ∈ m.data) :
    x = y ∨ x.address + x.datum.size ≤ y.address ∨ y.address + y.datum.size ≤ x.address := by
  obtain ⟨i, hi, rfl⟩ := List.getElem_of_mem hx
  obtain ⟨j, hj, rfl⟩ := List.getElem_of_mem hy
  have hpair := List.pairwise_iff_getElem.1 (Code.data_pairwise m.dataStart m.code).2
  rcases Nat.lt_trichotomy i j with hij | rfl | hij
  · exact .inr (.inl (hpair i j hi hj hij))
  · exact .inl rfl
  · exact .inr (.inr (hpair j i hj hi hij))

/-- Behind `.align 2`, a datum starts at a word. -/
theorem exists_aligned {c c' : Code} {l : String} {d : Datum}
    (h : m.code = c ++ .align 2 :: .datum l d :: c') :
    ∃ x ∈ m.data, x.label = l ∧ x.datum = d ∧ (wordSize : Int) ∣ x.address := by
  obtain ⟨a, ha⟩ := Code.data_append m.dataStart c (.align 2 :: .datum l d :: c')
  refine ⟨⟨l, Code.roundUp a 2, d⟩, ?_, rfl, rfl, Code.dvd_roundUp a 2⟩
  rw [data, h, ha]
  exact List.mem_append_right _ (.head _)

/-- The text at the address of a text is that text. -/
theorem text_at {x : Entry} (hx : x ∈ m.data) {q : String} (hq : x.datum = .asciiz q) :
    m.data.findSome? (·.text? x.address) = some (quotedText q) := by
  have hself : x.text? x.address = some (quotedText q) := by simp [Entry.text?, hq]
  obtain ⟨t, ht⟩ : ∃ t, m.data.findSome? (·.text? x.address) = some t := by
    refine Option.isSome_iff_exists.1 (List.findSome?_isSome_iff.2 ⟨x, hx, ?_⟩)
    simp [hself]
  obtain ⟨y, hy, hyt⟩ := List.exists_of_findSome?_eq_some ht
  -- a text takes at least one byte, so no other one starts there
  unfold Entry.text? at hyt
  split at hyt
  next q' hq' =>
    split at hyt
    next haddr =>
      obtain rfl | hlt | hlt := data_apart hx hy
      · rw [ht, ← hyt]
        cases hq.symm.trans hq'
        rfl
      · simp only [hq, Datum.size] at hlt
        omega
      · simp only [hq', Datum.size] at hlt
        omega
    next => cases hyt
  next => cases hyt

end Machine

end FlatC
