import FlatC.Parser.Program

/-!
# Parsers go forward

`Parser.Agree n s p q` says that two parsers do the same from the cursor `s`, and that they go
forward: they get to a cursor that is `Cursor.Ahead` of `s`, by `n` tokens at least if they succeed.
With two parsers that differ in what they call, such a statement tells how far ahead of `s` the call
is made; of one parser it tells that it moves forward.

Where the parser recurses it has a bound, with an entry for each token that is left. By
`Unfolds.recursionOn` the bound is never used up: where a step goes on only with fewer tokens left,
the recursion is the one solution of its equation without a bound (`Recursion.eq_iff`).
-/

namespace FlatC

namespace Cursor

/-- `t` stands `n` tokens behind `s`, or more, and no id was taken back on the way. -/
structure Ahead (n : Nat) (s t : Cursor) : Prop where
  tokens : ∃ read, s.rest = read ++ t.rest ∧ n ≤ read.length ∧
    t.last = (read.getLast?.map Lexeme.span).or s.last
  nextId : s.nextId ≤ t.nextId

namespace Ahead

variable {n m : Nat} {s t u : Cursor}

theorem refl (s : Cursor) : s.Ahead 0 s := ⟨⟨[], rfl, Nat.le_refl 0, rfl⟩, Nat.le_refl _⟩

theorem trans (h : s.Ahead n t) (h' : t.Ahead m u) : s.Ahead (n + m) u := by
  obtain ⟨⟨read, hread, hn, hlast⟩, hid⟩ := h
  obtain ⟨⟨read', hread', hm, hlast'⟩, hid'⟩ := h'
  refine ⟨⟨read ++ read', ?_, ?_, ?_⟩, Nat.le_trans hid hid'⟩
  · rw [hread, hread', List.append_assoc]
  · rw [List.length_append]
    exact Nat.add_le_add hn hm
  · rw [hlast', hlast, List.getLast?_append]
    cases read'.getLast? <;> simp

theorem mono (h : s.Ahead n t) (hm : m ≤ n) : s.Ahead m t := by
  obtain ⟨⟨read, hread, hn, hlast⟩, hid⟩ := h
  exact ⟨⟨read, hread, Nat.le_trans hm hn, hlast⟩, hid⟩

theorem length (h : s.Ahead n t) : t.rest.length + n ≤ s.rest.length := by
  obtain ⟨⟨read, hread, hn, -⟩, -⟩ := h
  rw [hread, List.length_append]
  omega

/-- Fewer tokens are left. -/
theorem fewer (h : s.Ahead n t) (hs : s.rest.length < m + n) : t.rest.length < m := by
  have := h.length
  omega

theorem under (h : s.Ahead n t) (hs : s.rest.length < m) : t.rest.length < m :=
  (h.mono (Nat.zero_le n)).fewer hs

/-- The next token is read. -/
theorem next (h : s.rest ≠ []) : s.Ahead 1 s.next := by
  cases hs : s.rest with
  | nil => exact absurd hs h
  | cons l rest =>
    have hnext : s.next = { s with last := some l.span, rest } := by rw [Cursor.next, hs]
    rw [hnext]
    exact ⟨⟨[l], hs, Nat.le_refl 1, rfl⟩, Nat.le_refl _⟩

/-- Ids are handed out. -/
theorem fresh (h : s.Ahead n t) {id : NodeId} (hid : s.nextId ≤ id) :
    s.Ahead n { t with nextId := id } :=
  ⟨h.tokens, hid⟩

end Ahead

theorem rest_of_peek? {s : Cursor} {t : Token} (h : s.peek? = some t) : s.rest ≠ [] := by
  intro hs
  rw [peek?, hs] at h
  cases h

theorem rest_of_check {s : Cursor} {t : Token} (h : s.check t = true) : s.rest ≠ [] := by
  intro hs
  rw [check, peek?, hs] at h
  cases h

end Cursor

namespace Parser

variable {α β : Type}

/-- The cursor of the result stands ahead of `s`, by `n` tokens at least if it is a success. -/
def Moves (n : Nat) (s : Cursor) : EStateM.Result Problem Cursor α → Prop
  | .ok _ t => s.Ahead n t
  | .error _ t => s.Ahead 0 t

theorem Moves.behind {n m : Nat} {s t : Cursor} {r : EStateM.Result Problem Cursor α}
    (hr : Moves m t r) (h : s.Ahead n t) : Moves (n + m) s r := by
  cases r with
  | ok a u => exact h.trans hr
  | error e u => exact (h.mono (Nat.zero_le n)).trans hr

/-- From `s` the two parsers do the same, and go forward by `n` tokens at least if they succeed. -/
structure Agree (n : Nat) (s : Cursor) (p q : Parser α) : Prop where
  eq : p s = q s
  moves : Moves n s (p s)

namespace Agree

variable {n m : Nat} {s : Cursor} {p q : Parser α} {f g : α → Parser β}

theorem mono (h : Agree n s p q) (hm : m ≤ n) : Agree m s p q := by
  refine ⟨h.eq, ?_⟩
  have hmoves := h.moves
  cases hp : p s with
  | ok a t =>
    rw [hp] at hmoves
    exact hmoves.mono hm
  | error e t =>
    rw [hp] at hmoves
    exact hmoves

theorem bind_eq : (p >>= f) s = match p s with
    | .ok a t => f a t
    | .error e t => .error e t := by
  show EStateM.bind p f s = _
  unfold EStateM.bind
  cases p s <;> rfl

/-- The first step is known to succeed. -/
theorem after {a : α} {t : Cursor} (hp : p s = .ok a t) (hq : q s = .ok a t) (h : s.Ahead n t)
    (hf : Agree m t (f a) (g a)) : Agree (n + m) s (p >>= f) (q >>= g) := by
  refine ⟨?_, ?_⟩
  · rw [bind_eq, bind_eq, hp, hq]
    exact hf.eq
  · rw [bind_eq, hp]
    exact hf.moves.behind h

theorem sum (hp : Agree n s p q) (hf : ∀ a t, s.Ahead n t → Agree m t (f a) (g a)) :
    Agree (n + m) s (p >>= f) (q >>= g) := by
  obtain ⟨heq, hmoves⟩ := hp
  cases hr : p s with
  | ok a t =>
    rw [hr] at hmoves heq
    exact after hr heq.symm hmoves (hf a t hmoves)
  | error e t =>
    rw [hr] at hmoves heq
    refine ⟨?_, ?_⟩
    · rw [bind_eq, bind_eq, hr, ← heq]
    · rw [bind_eq, hr]
      exact hmoves

/-- The second step takes what has to be taken. -/
theorem bind (hp : Agree n s p q) (hf : ∀ a t, s.Ahead n t → Agree m t (f a) (g a)) :
    Agree m s (p >>= f) (q >>= g) :=
  (hp.sum hf).mono (Nat.le_add_left m n)

/-- The first step takes what has to be taken. -/
theorem take (hp : Agree n s p q) (hf : ∀ a t, s.Ahead n t → Agree 0 t (f a) (g a)) :
    Agree n s (p >>= f) (q >>= g) :=
  hp.sum hf

theorem pure {a : α} : Agree 0 s (pure a) (pure a) := ⟨rfl, .refl s⟩

theorem lookBind {h : Cursor → α} (hf : Agree n s (f (h s)) (g (h s))) :
    Agree n s (Parser.look h >>= f) (Parser.look h >>= g) :=
  ⟨hf.eq, hf.moves⟩

theorem failWith {h : Cursor → Problem} : Agree n s (failWith h : Parser α) (failWith h) :=
  ⟨rfl, .refl s⟩

theorem fail {c : ErrorCode} {x : String} : Agree n s (fail c x : Parser α) (fail c x) := failWith

theorem unexpected {x : String} : Agree n s (unexpected x : Parser α) (unexpected x) := failWith

theorem freshNode {span : Span} : Agree 0 s (freshNode span) (freshNode span) :=
  ⟨rfl, (Cursor.Ahead.refl s).fresh (Nat.le_succ _)⟩

theorem advance (h : s.rest ≠ []) : Agree 1 s advance advance := ⟨rfl, .next h⟩

/-- Also behind the last token. -/
theorem advanceAny : Agree 0 s Parser.advance Parser.advance := by
  by_cases h : s.rest = []
  · have hnext : s.next = s := by rw [Cursor.next, h]
    refine ⟨rfl, ?_⟩
    show s.Ahead 0 s.next
    rw [hnext]
    exact .refl s
  · exact (advance h).mono (Nat.zero_le 1)

theorem expect {t : Token} {x : String} : Agree 1 s (expect t x) (expect t x) := by
  refine ⟨rfl, ?_⟩
  unfold Parser.expect
  split
  next h => exact .next (Cursor.rest_of_check h)
  next => exact .refl s

theorem identifier {x : String} : Agree 1 s (identifier x) (identifier x) := by
  refine ⟨rfl, ?_⟩
  unfold Parser.identifier
  split
  next h =>
    have hne : s.rest ≠ [] := by
      rw [h]
      exact List.cons_ne_nil _ _
    exact (Cursor.Ahead.next hne).fresh (Nat.le_succ _)
  next => exact .refl s

/-- A token is read if it is there. Then nothing more has to be taken. -/
theorem acceptBind {t : Token} {f g : Bool → Parser β} (hn : n ≤ 1)
    (hyes : ∀ u, s.Ahead 1 u → Agree 0 u (f true) (g true)) (hno : Agree n s (f false) (g false)) :
    Agree n s (accept t >>= f) (accept t >>= g) := by
  by_cases h : s.check t = true
  · have hok : accept t s = .ok true s.next := by rw [accept, if_pos h]
    have hnext := Cursor.Ahead.next (Cursor.rest_of_check h)
    exact (after hok hok hnext (hyes _ hnext)).mono hn
  · have hok : accept t s = .ok false s := by rw [accept, if_neg h]
    exact (after hok hok (.refl s) hno).mono (Nat.le_add_left n 0)

theorem acceptMapBind {h : Token → Option α} {f g : Option α → Parser β} (hn : n ≤ 1)
    (hyes : ∀ a u, s.Ahead 1 u → Agree 0 u (f (some a)) (g (some a)))
    (hno : Agree n s (f none) (g none)) : Agree n s (acceptMap h >>= f) (acceptMap h >>= g) := by
  cases hs : s.peek?.bind h with
  | some a =>
    obtain ⟨t, ht, -⟩ := Option.bind_eq_some_iff.1 hs
    have hok : acceptMap h s = .ok (some a) s.next := by rw [acceptMap, hs]
    have hnext := Cursor.Ahead.next (Cursor.rest_of_peek? ht)
    exact (after hok hok hnext (hyes a _ hnext)).mono hn
  | none =>
    have hok : acceptMap h s = .ok none s := by rw [acceptMap, hs]
    exact (after hok hok (.refl s) hno).mono (Nat.le_add_left n 0)

end Agree

/-- The two parsers agree wherever fewer than `m` tokens are left. -/
def AgreeUnder (m n : Nat) (p q : Parser α) : Prop := ∀ s, s.rest.length < m → Agree n s p q

/-- The parser goes forward, by a token at least if it succeeds. -/
def Takes (p : Parser α) : Prop := ∀ s, Agree 1 s p p

/-! ## Recursion -/

section

variable {ι : Type} {step step' : (ι → Parser α) → ι → Parser α} {p q : List Lexeme → ι → Parser α}
  {n m : Nat}

/-- `p` is the recursion by `step` with a bound, that has a token for each that is left. -/
def Unfolds (step : (ι → Parser α) → ι → Parser α) (p : List Lexeme → ι → Parser α) : Prop :=
  ∀ bound i s, s.rest.length ≤ bound.length → p bound i s = step (p bound.tail) i s

/-- `p` is the recursion by `step`, which goes on only where fewer tokens are left: one step gives
`p` if what it goes on with is as `p` wherever fewer tokens are left. -/
def RecursionOn (step : (ι → Parser α) → ι → Parser α) (p : ι → Parser α) : Prop :=
  ∀ i s r, (∀ j t, t.rest.length < s.rest.length → r j t = p j t) → step r i s = p i s

/-- The same of a recursion without parameters. -/
def Recursion (step : Parser α → Parser α) (p : Parser α) : Prop :=
  ∀ s r, (∀ t, t.rest.length < s.rest.length → r t = p t) → step r s = p s

/-- There is one recursion by a step. -/
theorem Recursion.eq_iff {step : Parser α → Parser α} {p q : Parser α} (h : Recursion step p) :
    (∀ s, q s = step q s) ↔ ∀ s, q s = p s := by
  constructor
  · intro hq s
    induction hs : s.rest.length using Nat.strongRecOn generalizing s with
    | ind k ih =>
      rw [hq s]
      exact h s q fun t ht => ih t.rest.length (hs ▸ ht) t rfl
  · intro hq s
    rw [hq s]
    exact (h s q fun t _ => hq t).symm

/-- Two bounded recursions agree, whatever their bounds, if their steps do. -/
theorem Unfolds.agree (hp : Unfolds step p) (hq : Unfolds step' q)
    (hstep : ∀ k < m, ∀ r r', (∀ i, AgreeUnder k n (r i) (r' i)) →
      ∀ i, AgreeUnder (k + 1) n (step r i) (step' r' i)) (i : ι) {s : Cursor} {b b' : List Lexeme}
    (hs : s.rest.length < m) (hb : s.rest.length ≤ b.length) (hb' : s.rest.length ≤ b'.length) :
    Agree n s (p b i) (q b' i) := by
  -- by induction on the tokens left: the rounds behind this one have fewer
  induction hk : s.rest.length using Nat.strongRecOn generalizing i s b b' with
  | ind k ih =>
    subst hk
    have hrounds : ∀ j, AgreeUnder s.rest.length n (p b.tail j) (q b'.tail j) := by
      intro j t ht
      refine ih _ ht j (by omega) ?_ ?_ rfl
      · rw [List.length_tail]
        omega
      · rw [List.length_tail]
        omega
    obtain ⟨heq, hmoves⟩ := hstep _ hs _ _ hrounds i s (Nat.lt_succ_self _)
    refine ⟨?_, ?_⟩
    · rw [hp b i s hb, hq b' i s hb']
      exact heq
    · rw [hp b i s hb]
      exact hmoves

theorem Unfolds.agreeUnder (hp : Unfolds step p) (hq : Unfolds step' q)
    (hstep : ∀ k < m, ∀ r r', (∀ i, AgreeUnder k n (r i) (r' i)) →
      ∀ i, AgreeUnder (k + 1) n (step r i) (step' r' i)) (i : ι) :
    AgreeUnder m n (bounded (p · i)) (bounded (q · i)) := by
  intro s hs
  have h := hp.agree hq hstep i hs (Nat.le_refl _) (Nat.le_refl _)
  exact ⟨h.eq, h.moves⟩

/-- **The bound is never used up.** A bounded recursion is one without a bound. -/
theorem Unfolds.recursionOn (hp : Unfolds step p)
    (hstep : ∀ k r r', (∀ i, AgreeUnder k n (r i) (r' i)) →
      ∀ i, AgreeUnder (k + 1) n (step r i) (step r' i)) :
    RecursionOn step fun i => bounded (p · i) := by
  intro i s r hr
  have hrounds : ∀ j, AgreeUnder s.rest.length n (r j) (p s.rest.tail j) := by
    intro j t ht
    have hlength : t.rest.length ≤ s.rest.tail.length := by
      rw [List.length_tail]
      omega
    obtain ⟨heq, hmoves⟩ := hp.agree hp (fun k _ => hstep k) j (Nat.lt_succ_self _)
      (Nat.le_refl t.rest.length) hlength
    have hrt : r j t = p t.rest j t := hr j t ht
    refine ⟨hrt.trans heq, ?_⟩
    rw [hrt]
    exact hmoves
  have hround := (hstep _ r _ hrounds i s (Nat.lt_succ_self _)).eq
  rw [hround]
  exact (hp s.rest i s (Nat.le_refl _)).symm

/-- Where the recursion is called with as many tokens for its bound as its caller has left, its own
bound does as well. -/
theorem Unfolds.bounded_eq (hp : Unfolds step p)
    (hstep : ∀ k r r', (∀ i, AgreeUnder k n (r i) (r' i)) →
      ∀ i, AgreeUnder (k + 1) n (step r i) (step r' i)) {F : Parser α → Parser β} {k : Nat}
    (hF : ∀ {m q q'}, AgreeUnder m n q q' → AgreeUnder m k (F q) (F q')) (i : ι) :
    (bounded fun bound => F (p bound i)) = F (bounded (p · i)) := by
  funext s
  have hcalls : AgreeUnder (s.rest.length + 1) n (p s.rest i) (bounded (p · i)) := by
    intro t ht
    have h := hp.agree hp (fun k _ => hstep k) i ht (Nat.le_of_lt_succ ht)
      (Nat.le_refl t.rest.length)
    exact ⟨h.eq, h.moves⟩
  exact (hF hcalls s (Nat.lt_succ_self _)).eq

theorem RecursionOn.recursion {step : Parser α → Parser α} {p : Parser α}
    (h : RecursionOn (fun r (_ : Unit) => step (r ())) fun _ => p) : Recursion step p :=
  fun s r hr => h () s (fun _ => r) fun _ => hr

end

end Parser

end FlatC
