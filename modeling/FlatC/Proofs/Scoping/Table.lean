import FlatC.Proofs.Binding.Spec

/-!
# A scope table is a stack of maps

Requests to a scope table are answered one after the other (`ScopeTable.answer`). The same
requests can be put to a `Stack`, which is no more than a list of association lists, from the
inside out. A table is **viewed** as the stack of the entries of its scopes; every request keeps
the view (`ScopeTable.answer_view`), so that no sequence of requests can tell the two apart.

`ScopeTable.Lawful` says what every single table that requests lead to is good for, and
`ScopeTable.refines_stack` puts both together.
-/

namespace FlatC

/-! ## Requests -/

/-- What can be asked of the open scopes. -/
inductive ScopeRequest where
  | enter
  | leave
  | declare (name : String) (id : SymbolId)
  | lookupLocal (name : String)
  | lookup (name : String)
  deriving DecidableEq, Repr

inductive ScopeAnswer where
  | done
  /-- The entries of a scope that is closed. -/
  | closed (entries : List (String × SymbolId))
  | found (id? : Option SymbolId)
  | failed (e : ScopeError)
  deriving DecidableEq, Repr

namespace ScopeRequest

variable {σ τ : Type}

/-- The answers to requests, where `answer` gives one of them and the state behind it. -/
def answers (answer : σ → ScopeRequest → ScopeAnswer × σ) (s : σ) :
    List ScopeRequest → List ScopeAnswer
  | [] => []
  | r :: rs => (answer s r).1 :: answers answer (answer s r).2 rs

/-- The state behind requests. -/
def after (answer : σ → ScopeRequest → ScopeAnswer × σ) (s : σ) (rs : List ScopeRequest) : σ :=
  rs.foldl (fun s r => (answer s r).2) s

/-- Requests do not tell a state from its view, if a single one does not. -/
theorem run_view {f : σ → ScopeRequest → ScopeAnswer × σ} {g : τ → ScopeRequest → ScopeAnswer × τ}
    {view : σ → τ} (h : ∀ s r, g (view s) r = ((f s r).1, view (f s r).2)) (s : σ)
    (rs : List ScopeRequest) :
    answers f s rs = answers g (view s) rs ∧ view (after f s rs) = after g (view s) rs := by
  induction rs generalizing s with
  | nil => exact ⟨rfl, rfl⟩
  | cons r rs ih =>
    obtain ⟨hanswers, hafter⟩ := ih (f s r).2
    constructor
    · rw [answers, answers, h, hanswers]
    · rw [after, after, List.foldl_cons, List.foldl_cons, h]
      exact hafter

end ScopeRequest

open ScopeRequest

/-- Answers a request. One that fails changes nothing. -/
def ScopeTable.answer (t : ScopeTable) : ScopeRequest → ScopeAnswer × ScopeTable
  | .enter => (.done, t.enter)
  | .leave =>
    match t.leave with
    | .ok (s, t') => (.closed s.entries, t')
    | .error e => (.failed e, t)
  | .declare x id =>
    match t.declare x id with
    | .ok t' => (.done, t')
    | .error e => (.failed e, t)
  | .lookupLocal x => (.found (t.lookupLocal x), t)
  | .lookup x => (.found (t.lookup x), t)

/-- Association lists from the inside out, each in the order of declaration. -/
abbrev Stack := List (List (String × SymbolId))

/-- Answers a request from association lists. The last list, that of the program, is never taken
away. -/
def Stack.answer : Stack → ScopeRequest → ScopeAnswer × Stack
  | k, .enter => (.done, [] :: k)
  | es :: es' :: k, .leave => (.closed es, es' :: k)
  | k, .leave => (.failed .noScope, k)
  | [], .declare .. => (.failed .noScope, [])
  | es :: k, .declare x id =>
    if x = "" then (.failed .noName, es :: k)
    else if x ∈ es.map Prod.fst then (.failed (.duplicate x), es :: k)
    else (.done, (es ++ [(x, id)]) :: k)
  | k, .lookupLocal x => (.found (k.head?.bind (·.lookup x)), k)
  | k, .lookup x => (.found (k.findSome? (·.lookup x)), k)

/-! ## The view -/

namespace Scope

variable {s : Scope} {x : String} {id : SymbolId}

/-- When a name cannot be declared, and why. -/
theorem declare_error_iff {e : ScopeError} :
    s.declare x id = .error e ↔
      x = "" ∧ e = .noName ∨ x ≠ "" ∧ x ∈ s.entries.map Prod.fst ∧ e = .duplicate x := by
  rw [names_entries, ← s.mem_symbols]
  unfold declare
  by_cases hx : x = ""
  · simp [hx, eq_comm]
  · by_cases hmem : x ∈ s.symbols <;> simp [hx, hmem, eq_comm]

end Scope

namespace ScopeTable

variable {t u : ScopeTable}

/-- The entries of the open scopes. -/
def view (t : ScopeTable) : Stack := t.scopes.map Scope.entries

theorem declare_error_iff {x : String} {id : SymbolId} {e : ScopeError} :
    t.declare x id = .error e ↔
      x = "" ∧ e = .noName ∨ x ≠ "" ∧ x ∈ t.inner.entries.map Prod.fst ∧ e = .duplicate x := by
  have hinner : t.declare x id = .error e ↔ t.inner.declare x id = .error e := by
    rw [declare]
    cases t.inner.declare x id <;> simp
  rw [hinner, Scope.declare_error_iff]

theorem answer_declare (t : ScopeTable) (x : String) (id : SymbolId) :
    t.answer (.declare x id) =
      match t.declare x id with
      | .ok t' => (.done, t')
      | .error e => (.failed e, t) :=
  rfl

theorem leave_error_iff {e : ScopeError} : t.leave = .error e ↔ t.depth = 1 ∧ e = .noScope := by
  rw [leave, depth, scopes]
  cases t.outer <;> simp [eq_comm]

theorem declare_view (t : ScopeTable) (x : String) (id : SymbolId) :
    t.view.answer (.declare x id) =
      ((t.answer (.declare x id)).1, (t.answer (.declare x id)).2.view) := by
  have hview : t.view = t.inner.entries :: t.outer.map Scope.entries := rfl
  rw [hview, Stack.answer, answer_declare]
  cases hdecl : t.declare x id with
  | error e =>
    obtain ⟨rfl, rfl⟩ | ⟨hx, hmem, rfl⟩ := declare_error_iff.1 hdecl
    · rw [if_pos rfl]
      rfl
    · rw [if_neg hx, if_pos hmem]
      rfl
  | ok t' =>
    -- whatever would make it fail is not there
    have hfree : ∀ e, ¬ t.declare x id = .error e := by simp [hdecl]
    have hx : x ≠ "" := fun h => hfree .noName (declare_error_iff.2 (.inl ⟨h, rfl⟩))
    have hmem : x ∉ t.inner.entries.map Prod.fst := fun h =>
      hfree (.duplicate x) (declare_error_iff.2 (.inr ⟨hx, h, rfl⟩))
    rw [if_neg hx, if_neg hmem]
    unfold declare at hdecl
    split at hdecl
    next inner hinner =>
      obtain rfl := Except.ok.inj hdecl
      rw [← Scope.entries_of_declare hinner]
      rfl
    next => cases hdecl

theorem leave_view (t : ScopeTable) :
    t.view.answer .leave = ((t.answer .leave).1, (t.answer .leave).2.view) := by
  obtain ⟨inner, outer⟩ := t
  cases outer <;> rfl

theorem lookup_view (t : ScopeTable) (x : String) : t.view.findSome? (·.lookup x) = t.lookup x := by
  rw [view, List.findSome?_map, lookup]
  congr 1
  funext s
  exact (s.lookup_eq_entries x).symm

/-- **A table and its view answer alike**, and stay alike. -/
theorem answer_view (t : ScopeTable) (r : ScopeRequest) :
    t.view.answer r = ((t.answer r).1, (t.answer r).2.view) := by
  cases r with
  | enter => rfl
  | leave => exact t.leave_view
  | declare x id => exact t.declare_view x id
  | lookupLocal x =>
    have hlocal : t.view.head?.bind (·.lookup x) = t.lookupLocal x :=
      (t.inner.lookup_eq_entries x).symm
    exact Prod.ext (congrArg ScopeAnswer.found hlocal) rfl
  | lookup x => exact Prod.ext (congrArg ScopeAnswer.found (t.lookup_view x)) rfl

/-! ## What a request changes -/

theorem answer_of_failed {r : ScopeRequest} {e : ScopeError} (h : (t.answer r).1 = .failed e) :
    (t.answer r).2 = t := by
  cases r with
  | enter => cases h
  | leave =>
    simp only [answer] at h ⊢
    split at h
    · cases h
    · rfl
  | declare x id =>
    rw [answer_declare] at h ⊢
    split at h
    · cases h
    · rfl
  | lookupLocal x => rfl
  | lookup x => rfl

/-- Requests do not reach the scopes around one that they leave open. -/
theorem suffix_answer {ss : List Scope} (h : ss <:+ u.outer) (r : ScopeRequest)
    (hopen : ss.length < (u.answer r).2.depth) : ss <:+ (u.answer r).2.outer := by
  cases r with
  | enter => exact h.trans (List.suffix_cons _ _)
  | leave =>
    obtain ⟨inner, outer⟩ := u
    cases outer with
    | nil => exact h
    | cons s outer =>
      rcases List.suffix_cons_iff.1 h with rfl | h
      · exact absurd hopen (Nat.lt_irrefl _)
      · exact h
  | declare x id =>
    rw [answer_declare]
    split
    next t' ht' =>
      unfold declare at ht'
      split at ht'
      · cases ht'
        exact h
      · cases ht'
    next => exact h
  | lookupLocal x => exact h
  | lookup x => exact h

theorem suffix_after {ss : List Scope} (rs : List ScopeRequest) (h : ss <:+ u.outer)
    (hopen : ∀ front, front <+: rs → ss.length < (after answer u front).depth) :
    ss <:+ (after answer u rs).outer := by
  induction rs generalizing u with
  | nil => exact h
  | cons r rs ih =>
    refine ih (suffix_answer h r (hopen [r] ⟨rs, rfl⟩)) fun front hfront => ?_
    exact hopen (r :: front) (List.cons_prefix_cons.2 ⟨rfl, hfront⟩)

/-- Closing a scope brings back the table that it was opened in. -/
theorem leave_after_enter (rs : List ScopeRequest)
    (hopen : ∀ front, front <+: rs → t.depth < (after answer t.enter front).depth)
    (hdepth : (after answer t.enter rs).depth = t.depth + 1) :
    ∃ s, (after answer t.enter rs).leave = .ok (s, t) := by
  have hsuffix : t.scopes <:+ (after answer t.enter rs).outer :=
    suffix_after rs (List.suffix_refl _) hopen
  have hlength : t.scopes.length = (after answer t.enter rs).outer.length :=
    (Nat.succ.inj hdepth).symm
  rw [leave, ← hsuffix.eq_of_length hlength]
  exact ⟨_, rfl⟩

/-! ## Tables that requests lead to -/

/-- What a scope table is good for. -/
structure Lawful (t : ScopeTable) : Prop where
  depth_pos : 1 ≤ t.depth
  /-- Only the scope of the program cannot be closed. -/
  leave_fails : ∀ e, t.leave = .error e ↔ t.depth = 1 ∧ e = .noScope
  /-- A name is declared unless it is none, or one of the innermost scope. -/
  declare_fails : ∀ x id e, t.declare x id = .error e ↔
    x = "" ∧ e = .noName ∨ x ≠ "" ∧ x ∈ t.inner.entries.map Prod.fst ∧ e = .duplicate x
  /-- In each scope, the map and the list hold the same names, each of them once. -/
  scopes : ∀ s ∈ t.scopes, s.order.Nodup ∧ (∀ x, x ∈ s.symbols ↔ x ∈ s.order) ∧
    s.entries.map Prod.fst = s.order
  /-- What fails cannot be seen later on. -/
  failed : ∀ r e rs, (t.answer r).1 = .failed e →
    answers answer (t.answer r).2 rs = answers answer t rs
  /-- A scope that is opened and, after `rs`, closed again leaves the table as it was. That it is
  the same scope means that the table is never as low in between. -/
  restored : ∀ rs, (∀ front, front <+: rs → t.depth < (after answer t.enter front).depth) →
    (after answer t.enter rs).depth = t.depth + 1 →
    ∃ s, (after answer t.enter rs).leave = .ok (s, t)

theorem lawful (t : ScopeTable) : t.Lawful where
  depth_pos := Nat.succ_le_succ (Nat.zero_le _)
  leave_fails _ := leave_error_iff
  declare_fails _ _ _ := declare_error_iff
  scopes s _ := ⟨s.nodup, s.mem_symbols, s.names_entries⟩
  failed r e rs h := by rw [answer_of_failed h]
  restored := leave_after_enter

/-- **A scope table is a stack of maps.** Requests to a new table are answered as they are from
association lists. The table that they lead to is viewed as the lists that they lead to, and it is
lawful. -/
theorem refines_stack (rs : List ScopeRequest) :
    answers answer initial rs = answers Stack.answer [[]] rs ∧
      (after answer initial rs).view = after Stack.answer [[]] rs ∧
      (after answer initial rs).Lawful := by
  obtain ⟨hanswers, hview⟩ := run_view answer_view initial rs
  exact ⟨hanswers, hview, lawful _⟩

/-- A name that is declared in two scopes, one that is declared twice, and one scope too many to
close. -/
example : answers answer initial [.declare "x" 0, .enter, .declare "x" 1, .declare "y" 2,
      .declare "x" 3, .leave, .lookup "x", .lookup "y", .leave] =
    [.done, .done, .done, .done, .failed (.duplicate "x"), .closed [("x", 1), ("y", 2)],
      .found (some 0), .found none, .failed .noScope] := by
  decide

end ScopeTable

end FlatC
