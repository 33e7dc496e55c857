import FlatC.Proofs.Syntax.Grammar

/-!
# What a parsing step does

A step that succeeds takes some tokens from the front of those that are left, and
hands out some ids. The lemmas here say which, for the steps that look at one token:
`bind_ok` splits a parser into its steps, and each `…_ok` lemma inverts one of them.
-/

namespace FlatC

/-- The tokens that are left, without their spans. -/
def Cursor.tokens (s : Cursor) : List Token := s.rest.map Lexeme.token

theorem Cursor.peek?_eq (s : Cursor) : s.peek? = s.tokens.head? := by
  simp [Cursor.peek?, Cursor.tokens]

theorem Cursor.tokens_next (s : Cursor) : s.next.tokens = s.tokens.tail := by
  simp [Cursor.tokens, List.map_tail]

theorem Token.sameKind_mark {t : Token} {m : Mark} : t.sameKind (.mark m) = true ↔ t = .mark m := by
  cases t <;> simp [Token.sameKind]

theorem Token.sameKind_word {t : Token} {w : Keyword} :
    t.sameKind (.word w) = true ↔ t = .word w := by
  cases t <;> simp [Token.sameKind]

/-- A token that carries no value: it is alike to itself alone. -/
def Token.Fixed (t : Token) : Prop := ∀ u : Token, u.sameKind t = true ↔ u = t

theorem Token.fixed_mark (m : Mark) : (Token.mark m).Fixed := fun _ => Token.sameKind_mark

theorem Token.fixed_word (w : Keyword) : (Token.word w).Fixed := fun _ => Token.sameKind_word

theorem Cursor.check_iff {s : Cursor} {t : Token} (ht : t.Fixed) :
    s.check t = true ↔ s.tokens.head? = some t := by
  rw [Cursor.check, Cursor.peek?_eq]
  cases s.tokens.head? with
  | none => simp
  | some u => simp [ht u]

theorem Cursor.tokens_of_head {s : Cursor} {t : Token} (h : s.tokens.head? = some t) :
    s.tokens = t :: s.next.tokens := by
  rw [Cursor.tokens_next]
  cases hs : s.tokens with
  | nil => simp [hs] at h
  | cons u us => simp_all

namespace Parser

variable {α β : Type} {s s' : Cursor}

theorem bind_ok {p : Parser α} {f : α → Parser β} {b : β} :
    (p >>= f) s = .ok b s' ↔ ∃ a t, p s = .ok a t ∧ f a t = .ok b s' := by
  show EStateM.bind p f s = .ok b s' ↔ _
  unfold EStateM.bind
  cases h : p s with
  | ok a t =>
    simp only [EStateM.Result.ok.injEq]
    exact ⟨fun h => ⟨a, t, ⟨rfl, rfl⟩, h⟩, fun ⟨_, _, ⟨ha, ht⟩, h⟩ => ha ▸ ht ▸ h⟩
  | error e t => simp

theorem pure_ok {a b : α} : (pure a : Parser α) s = .ok b s' ↔ a = b ∧ s = s' := by
  show EStateM.Result.ok a s = .ok b s' ↔ _
  simp

theorem look_ok {f : Cursor → α} {a : α} : look f s = .ok a s' ↔ f s = a ∧ s = s' := by
  simp [look]

@[simp] theorem failWith_ne_ok {f : Cursor → Problem} {a : α} : failWith f s ≠ .ok a s' := by
  simp [failWith]

@[simp] theorem fail_ne_ok {c : ErrorCode} {x : String} {a : α} : fail c x s ≠ .ok a s' :=
  failWith_ne_ok

@[simp] theorem unexpected_ne_ok {x : String} {a : α} : unexpected x s ≠ .ok a s' :=
  failWith_ne_ok

theorem freshNode_ok {span : Span} {node : Node} :
    freshNode span s = .ok node s' ↔ node = ⟨s.nextId, span⟩ ∧ s' = { s with nextId := s.nextId + 1 } := by
  simp only [freshNode, bind_ok, pure_ok, freshId, EStateM.Result.ok.injEq]
  constructor
  · rintro ⟨_, _, ⟨rfl, rfl⟩, rfl, rfl⟩; exact ⟨rfl, rfl⟩
  · rintro ⟨rfl, rfl⟩; exact ⟨_, _, ⟨rfl, rfl⟩, rfl, rfl⟩

theorem accept_ok {t : Token} (ht : t.Fixed) {b : Bool} (h : accept t s = .ok b s') :
    (b = true ∧ s.tokens = t :: s'.tokens ∧ s'.nextId = s.nextId) ∨ (b = false ∧ s' = s) := by
  unfold accept at h
  split at h
  next hc =>
    cases h
    exact .inl ⟨rfl, Cursor.tokens_of_head ((Cursor.check_iff ht).1 hc), Cursor.nextId_next s⟩
  next => cases h; exact .inr ⟨rfl, rfl⟩

theorem expect_ok {t : Token} (ht : t.Fixed) {x : String} {sp : Span}
    (h : expect t x s = .ok sp s') : s.tokens = t :: s'.tokens ∧ s'.nextId = s.nextId := by
  unfold expect at h
  split at h
  next hc =>
    cases h
    exact ⟨Cursor.tokens_of_head ((Cursor.check_iff ht).1 hc), Cursor.nextId_next s⟩
  next => cases h

theorem expectMark_ok {m : Mark} {x : String} {sp : Span} (h : expect (.mark m) x s = .ok sp s') :
    s.tokens = .mark m :: s'.tokens ∧ s'.nextId = s.nextId :=
  expect_ok (Token.fixed_mark m) h

theorem identifier_ok {x : String} {i : Ident} (h : identifier x s = .ok i s') :
    ∃ name span, i = ⟨s.nextId, name, span⟩ ∧ s.tokens = .ident name :: s'.tokens ∧
      s'.nextId = s.nextId + 1 := by
  unfold identifier at h
  split at h
  next name span rest hr =>
    cases h
    exact ⟨name, span, rfl, by simp [Cursor.tokens, hr], rfl⟩
  next => cases h

theorem acceptMap_ok {f : Token → Option α} {r : Option α} (h : acceptMap f s = .ok r s') :
    (∃ t a, r = some a ∧ f t = some a ∧ s.tokens = t :: s'.tokens ∧ s'.nextId = s.nextId) ∨
      (r = none ∧ s' = s) := by
  unfold acceptMap at h
  rw [Cursor.peek?_eq] at h
  split at h
  next a ha =>
    cases h
    obtain ⟨t, ht, hf⟩ := Option.bind_eq_some_iff.1 ha
    exact .inl ⟨t, a, rfl, hf, Cursor.tokens_of_head ht, Cursor.nextId_next s⟩
  next => cases h; exact .inr ⟨rfl, rfl⟩

/-- Reading the token that was seen. -/
theorem advance_ok {r : Option Lexeme} {t : Token} (ht : s.peek? = some t)
    (h : advance s = .ok r s') : s.tokens = t :: s'.tokens ∧ s'.nextId = s.nextId := by
  rw [Cursor.peek?_eq] at ht
  cases h
  exact ⟨Cursor.tokens_of_head ht, Cursor.nextId_next s⟩

theorem bounded_ok {p : List Lexeme → Parser α} {a : α} (h : bounded p s = .ok a s') :
    p s.rest s = .ok a s' := h

end Parser

end FlatC
