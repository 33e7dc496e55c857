import FlatC.Proofs.Code.Labels

/-!
# Labels in the life of a session

A session gives away numbers for labels as long as it lives: to each program that it compiles, to
code that is written on its own, and to whoever asks for a label or for a number. `Session.made` are
all labels that are made in a row of uses. As no number is given away twice, they differ
(`Session.labels_unique`), whatever words they are made of.
-/

namespace FlatC

/-- The labels of the variables and functions of a program, and of the ends of the functions. -/
def Program.nameLabels (p : Program) : List String :=
  p.decls.filterMap Decl.start? ++ p.decls.filterMap Decl.exit?

/-- The labels of a piece of code are those of the names, and those made of the stems of the
program. -/
theorem generate_labels {o : Options} {p : Program} {b : Annotations} {n m : Nat} {code : Code}
    (h : generate o p b n = .ok (code, m)) :
    m = n + p.stems.length ∧ (∀ stem ∈ p.stems, stem ∈ Label.stems) ∧
      code.labels.Perm (p.nameLabels ++ Label.series n p.stems) := by
  obtain ⟨inner, ⟨hcount, hseries, hwords⟩, hperm⟩ := Code.decls_made h
  refine ⟨hcount, hwords, hperm.trans ?_⟩
  rw [Program.nameLabels, List.append_assoc]
  exact (hseries.append_left _).append_left _

namespace Session

/-- What can be done with a session. Reading, binding and checking do no more to it than to report
something. -/
inductive Use where
  | report (rs : List Report)
  | takeLabel
  | makeLabel (stem : String)
  | generate (o : Options) (p : Program) (notes : Annotations)
  | compileProgram (o : Options) (p : Program)
  | compile (o : Options) (source : String)

namespace Use

variable (s : Session)

/-- The session behind a use. -/
def after : Use → Session
  | report rs => s.report rs
  | takeLabel | makeLabel _ => s.takeLabel.2
  | generate o p notes => (s.generate o p notes).2
  | compileProgram o p => (s.compileProgram o p).2
  | compile o source => (s.compile o source).2

/-- The code that a use gives, behind the program that it is the code of. -/
def code? : Use → Option (Program × Code)
  | report _ | takeLabel | makeLabel _ => none
  | generate o p notes => (s.generate o p notes).1.toOption.map (p, ·)
  | compileProgram o p => (s.compileProgram o p).1.toOption.join.map (p, ·)
  | compile o source =>
    (s.parse source).1.bind fun p => (s.compile o source).1.toOption.join.map (p, ·)

/-- The words of the labels that a use makes, in their order. -/
def stems : Use → List String
  | makeLabel stem => [stem]
  | u => ((u.code? s).map fun c => c.1.stems).getD []

/-- The labels that a use makes, in their order. -/
def labels (u : Use) : List String := Label.series s.nextLabel (u.stems s)

end Use

/-- The labels that are made in uses one after the other. -/
def made (s : Session) : List Use → List String
  | [] => []
  | u :: us => u.labels s ++ (u.after s).made us

/-! ## How many numbers are given away -/

/-- Between `s` and `t` the code of `p` was written, or none was. -/
def Wrote (s t : Session) (p : Program) : Option Code → Prop
  | some code => ∃ o b, FlatC.generate o p b s.nextLabel = .ok (code, t.nextLabel)
  | none => t.nextLabel = s.nextLabel

section

variable {s t u : Session} {p : Program} {c : Option Code}

theorem Wrote.after (h : Wrote t u p c) (hs : t.nextLabel = s.nextLabel) : Wrote s u p c := by
  cases c with
  | none => exact h.trans hs
  | some code => rwa [Wrote, hs] at h

theorem generate_wrote (s : Session) (o : Options) (p : Program) (b : Annotations) :
    Wrote s (s.generate o p b).2 p (s.generate o p b).1.toOption := by
  unfold Session.generate
  split
  next => exact rfl
  next code m h => exact ⟨o, b, h⟩

theorem checkAndGenerate_wrote (s : Session) (o : Options) (p : Program) (b : Annotations) :
    Wrote s (s.checkAndGenerate o p b).2 p (s.checkAndGenerate o p b).1.toOption.join := by
  have hlabel : (s.check p b).2.nextLabel = s.nextLabel := rfl
  unfold checkAndGenerate
  generalize s.check p b = c at hlabel
  obtain ⟨d | ⟨ok, b'⟩, t⟩ := c
  · exact hlabel
  · dsimp only at hlabel ⊢
    split
    · exact hlabel
    · unfold placeAndGenerate
      split
      · exact hlabel
      next b'' _ =>
        have hwrote := (generate_wrote t o p b'').after hlabel
        generalize t.generate o p b'' = c at hwrote
        obtain ⟨d | code, t'⟩ := c <;> exact hwrote

theorem compileProgram_wrote (s : Session) (o : Options) (p : Program) :
    Wrote s (s.compileProgram o p).2 p (s.compileProgram o p).1.toOption.join := by
  have hlabel : (s.bind p .empty).2.nextLabel = s.nextLabel := by
    unfold Session.bind
    split <;> rfl
  unfold compileProgram
  generalize s.bind p .empty = c at hlabel
  obtain ⟨d | ⟨ok, b⟩, t⟩ := c
  · exact hlabel
  · dsimp only at hlabel ⊢
    split
    · exact hlabel
    · exact (checkAndGenerate_wrote t o p b).after hlabel

theorem parse_nextLabel (s : Session) (source : String) :
    (s.parse source).2.nextLabel = s.nextLabel := by
  unfold Session.parse
  split
  · rfl
  · dsimp only
    split <;> rfl

/-- A call writes the code of the program that it reads, if it reads one. -/
theorem compile_wrote (s : Session) (o : Options) (source : String) :
    (∃ p, (s.parse source).1 = some p ∧
      Wrote s (s.compile o source).2 p (s.compile o source).1.toOption.join) ∨
    (s.parse source).1 = none ∧ (s.compile o source).2.nextLabel = s.nextLabel := by
  have hlabel := parse_nextLabel s source
  unfold Session.compile
  generalize s.parse source = c at hlabel
  obtain ⟨_ | p, t⟩ := c
  · exact .inr ⟨rfl, hlabel⟩
  · exact .inl ⟨p, rfl, (compileProgram_wrote t o p).after hlabel⟩

end

namespace Use

/-- Code that a use gives was written in it, with the labels that the use makes. Each of them has a
number of its own, and no number is taken back. -/
structure Sound (s : Session) (u : Use) : Prop where
  wrote : ∀ p code, u.code? s = some (p, code) →
    u.stems s = p.stems ∧ Wrote s (u.after s) p (some code)
  label : s.nextLabel + (u.stems s).length ≤ (u.after s).nextLabel

theorem Sound.of_wrote {s : Session} {u : Use} {p : Program} {c : Option Code}
    (h : Wrote s (u.after s) p c) (hcode : u.code? s = c.map (p, ·))
    (hstems : u.stems s = ((u.code? s).map fun c => c.1.stems).getD []) : u.Sound s := by
  cases c with
  | none =>
    rw [hcode] at hstems
    refine ⟨fun q code hq => ?_, ?_⟩
    · rw [hcode] at hq
      cases hq
    · rw [hstems]
      exact Nat.le_of_eq h.symm
  | some code =>
    rw [hcode] at hstems
    refine ⟨fun q code' hq => ?_, ?_⟩
    · rw [hcode] at hq
      cases hq
      exact ⟨hstems, h⟩
    · obtain ⟨o, b, hgen⟩ := h
      rw [hstems]
      exact Nat.le_of_eq (generate_labels hgen).1.symm

theorem sound (s : Session) (u : Use) : u.Sound s := by
  cases u with
  | report rs => exact .of_wrote (p := .empty) (c := none) rfl rfl rfl
  | takeLabel => exact ⟨fun _ _ h => (by cases h), Nat.le_succ s.nextLabel⟩
  | makeLabel stem => exact ⟨fun _ _ h => (by cases h), Nat.le_refl _⟩
  | generate o p b => exact .of_wrote (generate_wrote s o p b) rfl rfl
  | compileProgram o p => exact .of_wrote (compileProgram_wrote s o p) rfl rfl
  | compile o source =>
    rcases compile_wrote s o source with ⟨p, hp, h⟩ | ⟨hnone, h⟩
    · exact .of_wrote h (by rw [code?, hp, Option.bind_some]) rfl
    · exact .of_wrote (p := .empty) (c := none) h (by rw [code?, hnone]; rfl) rfl

end Use

/-! ## Histories -/

theorem mem_made {s : Session} {us : List Use} {l : String} (h : l ∈ s.made us) :
    ∃ stem k, s.nextLabel ≤ k ∧ l = Label.numbered stem k := by
  induction us generalizing s with
  | nil => cases h
  | cons u us ih =>
    rcases List.mem_append.1 h with h | h
    · obtain ⟨stem, -, k, hk, -, rfl⟩ := Label.mem_series h
      exact ⟨stem, k, hk, rfl⟩
    · obtain ⟨stem, k, hk, rfl⟩ := ih h
      have := (u.sound s).label
      exact ⟨stem, k, by omega, rfl⟩

theorem nodup_made (s : Session) (us : List Use) : (s.made us).Nodup := by
  induction us generalizing s with
  | nil => exact .nil
  | cons u us ih =>
    refine List.nodup_append.2 ⟨Label.nodup_series _ _, ih (u.after s), ?_⟩
    intro l hl l' hl' heq
    subst heq
    obtain ⟨stem, -, k, -, hk, rfl⟩ := Label.mem_series hl
    obtain ⟨stem', k', hk', heq⟩ := mem_made hl'
    have := Label.numbered_inj heq
    have := (u.sound s).label
    omega

/-- **All labels that are made in the life of a session differ**, whatever they are made for, and
none that is made for code is like the label of a name.

A label is made of a word and the next free number. The labels in a piece of code are those of the
names in its program, and those that were made in the use which gave it, one for each stem. -/
theorem labels_unique :
    (∀ (stems : List String) (n : Nat),
      (stems.mapM Gen.label).run n = .ok (Label.series n stems, n + stems.length)) ∧
    (∀ s u p code, Use.code? s u = some (p, code) →
      u.labels s = Label.series s.nextLabel p.stems ∧
      (u.after s).nextLabel = s.nextLabel + p.stems.length ∧
      code.labels.Perm (p.nameLabels ++ u.labels s) ∧ ∀ stem ∈ p.stems, stem ∈ Label.stems) ∧
    (∀ s us, (made s us).Nodup) ∧
    ∀ stem ∈ Label.stems, ∀ n x, Label.numbered stem n ≠ Label.function x ∧
      Label.numbered stem n ≠ Label.exit x ∧ Label.numbered stem n ≠ Label.global x := by
  refine ⟨Label.mapM_label, fun s u p code h => ?_, nodup_made, fun stem hstem n x => ?_⟩
  · obtain ⟨hstems, o, b, hgen⟩ := (u.sound s).wrote p code h
    obtain ⟨hlabel, hwords, hperm⟩ := generate_labels hgen
    have hlabels : u.labels s = Label.series s.nextLabel p.stems := by rw [Use.labels, hstems]
    refine ⟨hlabels, hlabel, ?_, hwords⟩
    rwa [hlabels]
  · exact ⟨Label.numbered_ne_function hstem x n, Label.numbered_ne_exit stem x n,
      Label.numbered_ne_global hstem x n⟩

/-- A text that is compiled twice, and a number and a label that are taken in between. -/
theorem labels_unique_twice : ∃ s u p code, s = Session.new "" ∧
    u = Use.compile {} "void main() \x7b while (true) \x7b cout << \"a\"; \x7d \x7d" ∧
    u.code? s = some (p, code) ∧ p.stems = ["while", "while_end", "str"] ∧
    code.labels.Perm (p.nameLabels ++ ["while_0", "while_end_1", "str_2"]) ∧
    (s.made [u, .takeLabel, .makeLabel "while_end", u]).Nodup ∧
    s.made [u, .takeLabel, .makeLabel "while_end", u] =
      ["while_0", "while_end_1", "str_2", "while_end_4", "while_5", "while_end_6", "str_7"] ∧
    "while" ∈ Label.stems ∧ Label.numbered "while" 0 ≠ Label.function "while_0" := by
  let s := Session.new ""
  let u := Use.compile {} "void main() \x7b while (true) \x7b cout << \"a\"; \x7d \x7d"
  obtain ⟨-, hcode, hmade, hname⟩ := labels_unique
  have hstems : ((u.code? s).map fun c => c.1.stems) = some ["while", "while_end", "str"] := by
    decide +kernel
  obtain ⟨⟨p, code⟩, hgives, hp⟩ := Option.map_eq_some_iff.1 hstems
  obtain ⟨-, -, hperm, -⟩ := hcode s u p code hgives
  refine ⟨s, u, p, code, rfl, rfl, hgives, hp, ?_, hmade s _, by decide +kernel, by decide,
    (hname "while" (by decide) 0 "while_0").1⟩
  have hseries : u.labels s = ["while_0", "while_end_1", "str_2"] := by
    decide +kernel
  rwa [hseries] at hperm

end Session

end FlatC
