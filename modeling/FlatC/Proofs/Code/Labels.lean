import FlatC.Proofs.Code.Stems
import FlatC.Proofs.Compile
import FlatC.Proofs.Machine.Basic
import FlatC.Proofs.Scoping.Surroundings

/-!
# Which labels a file defines

A file defines the labels of its functions and variables, one more at the end of every function,
and those inside functions, which have numbers. These are made of the stems of the tree, with the
numbers given away in between (`Made`). A number is given away once (`Numbered`), and the names of
declarations differ; but the end of a function whose name starts with an underscore may have the
label of another declaration. `labels_nodup_iff` says that no two labels are the same but for that.
-/

namespace FlatC

namespace Label

/-- The words of the labels with numbers. -/
def stems : List String := ["str", "and_end", "or_end", "if_end", "else", "while", "while_end"]

/-- The digits at the end of a label, from the last one on. -/
def lastDigits (l : String) : List Char := l.toList.reverse.takeWhile Char.isDigit

theorem lastDigits_numbered (stem : String) (n : Nat) :
    lastDigits (numbered stem n) = (Nat.toDigits 10 n).reverse := by
  have hlist : (numbered stem n).toList.reverse =
      (Nat.toDigits 10 n).reverse ++ '_' :: stem.toList.reverse := by
    simp [numbered]
  rw [lastDigits, hlist]
  refine Lexer.takeWhile_append (fun c hc => ?_) (by simp)
  exact Nat.isDigit_of_mem_toDigits (by decide) (by decide) (List.mem_reverse.1 hc)

/-- Labels with different numbers are different, whatever stands in front of the numbers. -/
theorem numbered_inj {stem stem' : String} {n n' : Nat}
    (h : numbered stem n = numbered stem' n') : n = n' := by
  have hdigits : (Nat.toDigits 10 n).reverse = (Nat.toDigits 10 n').reverse := by
    rw [← lastDigits_numbered stem, ← lastDigits_numbered stem', h]
  calc
    n = Nat.ofDigitChars 10 (Nat.toDigits 10 n) 0 := Nat.ofDigitChars_ten_toDigits.symm
    _ = Nat.ofDigitChars 10 (Nat.toDigits 10 n') 0 := by rw [List.reverse_inj.1 hdigits]
    _ = n' := Nat.ofDigitChars_ten_toDigits

theorem numbered_ne {stem l : String} {n : Nat} (h : lastDigits l = []) : numbered stem n ≠ l := by
  rintro rfl
  rw [lastDigits_numbered, List.reverse_eq_nil_iff] at h
  exact Nat.toDigits_ne_nil h

theorem numbered_ne_exit (stem x : String) (n : Nat) : numbered stem n ≠ exit x :=
  numbered_ne (by simp [lastDigits, exit])

theorem head?_stem : ∀ stem ∈ stems, stem.toList.head?.any (· ≠ '_') = true := by
  decide

theorem numbered_ne_global {stem : String} (hs : stem ∈ stems) (x : String) (n : Nat) :
    numbered stem n ≠ global x := by
  intro h
  have hhead : (numbered stem n).toList.head? = some '_' := by simp [h, global]
  have hstem := head?_stem stem hs
  cases hw : stem.toList with
  | nil => simp [hw] at hstem
  | cons c w =>
    simp only [numbered, String.toList_append, hw, List.cons_append, List.head?_cons,
      Option.some.injEq] at hhead
    simp [hw, hhead] at hstem

theorem numbered_ne_function {stem : String} (hs : stem ∈ stems) (x : String) (n : Nat) :
    numbered stem n ≠ function x := by
  unfold function
  split
  next hx => exact hx ▸ numbered_ne rfl
  next => exact numbered_ne_global hs x n

theorem global_ne_main (x : String) : global x ≠ "main" := by
  intro h
  have hhead := congrArg (·.toList.head?) h
  simp [global] at hhead

theorem exit_ne_main (x : String) : exit x ≠ "main" := by
  intro h
  have hlast := congrArg (·.toList.getLast?) h
  simp [exit] at hlast

/-- The end of a function has the label of a declaration only if its name starts with an
underscore. -/
theorem exit_eq_global {x y : String} (hx : x ≠ "") :
    exit x = global y ↔ ∃ z, x = "_" ++ z ∧ y = z ++ "_exit" := by
  constructor
  · intro h
    have hlist : x.toList ++ "_exit".toList = '_' :: y.toList := by
      simpa [exit, global] using congrArg String.toList h
    cases hw : x.toList with
    | nil => exact absurd (String.toList_inj.1 hw) hx
    | cons c w =>
      rw [hw, List.cons_append, List.cons.injEq] at hlist
      refine ⟨String.ofList w, String.toList_inj.1 ?_, String.toList_inj.1 ?_⟩
      · simp [hw, hlist.1]
      · simp [← hlist.2]
  · rintro ⟨z, rfl, rfl⟩
    simp [exit, global, String.append_assoc]

theorem mem_series {l : String} {stems : List String} {n : Nat} (h : l ∈ series n stems) :
    ∃ stem ∈ stems, ∃ k, n ≤ k ∧ k < n + stems.length ∧ l = numbered stem k := by
  induction stems generalizing n with
  | nil => cases h
  | cons stem stems ih =>
    rw [List.length_cons]
    rcases List.mem_cons.1 h with rfl | h
    · exact ⟨stem, .head _, n, by omega, by omega, rfl⟩
    · obtain ⟨stem', hstem, k, hn, hk, rfl⟩ := ih h
      exact ⟨stem', .tail _ hstem, k, by omega, by omega, rfl⟩

theorem nodup_series (stems : List String) (n : Nat) : (series n stems).Nodup := by
  induction stems generalizing n with
  | nil => exact .nil
  | cons stem stems ih =>
    refine List.nodup_cons.2 ⟨fun h => ?_, ih (n + 1)⟩
    obtain ⟨stem', -, k, hk, -, heq⟩ := mem_series h
    have := numbered_inj heq
    omega

end Label

/-! ## Labels with numbers -/

/-- Labels with numbers from `n` on and below `n'`, each number at most once. -/
structure Numbered (n n' : Nat) (ls : List String) : Prop where
  le : n ≤ n'
  nodup : ls.Nodup
  made : ∀ l ∈ ls, ∃ stem ∈ Label.stems, ∃ k, n ≤ k ∧ k < n' ∧ l = Label.numbered stem k

/-- The labels `ls` are those made of the words `stems`, with all numbers from `n` on and below
`n'`. -/
structure Made (n n' : Nat) (stems ls : List String) : Prop where
  count : n' = n + stems.length
  series : ls.Perm (Label.series n stems)
  words : ∀ stem ∈ stems, stem ∈ Label.stems

namespace Made

variable {n m n' : Nat} {stems stems' ls ls' : List String}

theorem nil (n : Nat) : Made n n [] [] := ⟨rfl, .nil, nofun⟩

theorem one (n : Nat) {stem : String} (h : stem ∈ Label.stems) :
    Made n (n + 1) [stem] [Label.numbered stem n] :=
  ⟨rfl, .refl _, List.forall_mem_singleton.2 h⟩

theorem append (h : Made n m stems ls) (h' : Made m n' stems' ls') :
    Made n n' (stems ++ stems') (ls ++ ls') := by
  obtain ⟨rfl, hp, hw⟩ := h
  obtain ⟨rfl, hp', hw'⟩ := h'
  refine ⟨?_, ?_, List.forall_mem_append.2 ⟨hw, hw'⟩⟩
  · rw [List.length_append, Nat.add_assoc]
  · rw [Label.series_append]
    exact hp.append hp'

theorem perm (h : Made n n' stems ls) (hp : ls.Perm ls') : Made n n' stems ls' :=
  ⟨h.count, hp.symm.trans h.series, h.words⟩

theorem numbered (h : Made n n' stems ls) : Numbered n n' ls := by
  obtain ⟨rfl, hp, hw⟩ := h
  refine ⟨Nat.le_add_right _ _, hp.nodup_iff.2 (Label.nodup_series stems n), fun l hl => ?_⟩
  obtain ⟨stem, hstem, hl⟩ := Label.mem_series (hp.mem_iff.1 hl)
  exact ⟨stem, hw stem hstem, hl⟩

end Made

namespace Code

variable {o : Options} {b : Annotations} {n n' : Nat} {c : Code}

@[simp] theorem labels_append (c c' : Code) : (c ++ c').labels = c.labels ++ c'.labels := by
  simp [labels]

@[simp] theorem labels_remark (text : String) : (remark o text).labels = [] := by
  unfold remark
  split <;> rfl

@[simp] theorem labels_push (r : Reg) : (push o r).labels = [] := rfl

@[simp] theorem labels_pop (r : Reg) : (pop o r).labels = [] := rfl

@[simp] theorem labels_peek (r : Reg) : (peek o r).labels = [] := rfl

@[simp] theorem labels_discard : (discard o).labels = [] := rfl

@[simp] theorem labels_load (r : Reg) (l : Location) : (load r l).labels = [] := rfl

@[simp] theorem labels_store (r : Reg) (l : Location) : (store r l).labels = [] := rfl

@[simp] theorem labels_immediate (x : Int) : (immediate o x).labels = [] := rfl

@[simp] theorem labels_operate (op : AluOp) : (operate o op).labels = [] := rfl

@[simp] theorem labels_bare (i : Instr) (c : Code) : labels (bare i :: c) = labels c := rfl

@[simp] theorem labels_label (l : String) (c : Code) : labels (.label l :: c) = l :: labels c := rfl

@[simp] theorem labels_nil : labels [] = [] := rfl

@[simp] theorem labels_prologue (formal room : Nat) : (prologue o formal room).labels = [] := by
  unfold prologue
  split <;> rfl

@[simp] theorem labels_epilogue (formal : Nat) (isMain : Bool) :
    (epilogue o formal isMain).labels = [] := by
  unfold epilogue
  split <;> rfl

theorem label_ok {stem l : String} (h : (Gen.label stem).run n = .ok (l, n')) :
    l = Label.numbered stem n ∧ n' = n + 1 := by
  cases h
  exact ⟨rfl, rfl⟩

theorem symbolOf_ok {i : Ident} {s : Symbol} (h : (symbolOf b i).run n = .ok (s, n')) : n' = n := by
  unfold symbolOf at h
  split at h
  · exact (run_pure_ok.1 h).2.symm
  · cases h

theorem location_ok {q : Place} {l : Location} (h : (location b q).run n = .ok (l, n')) :
    n' = n := by
  induction q generalizing l n n' with
  | var node name =>
    simp only [location, run_bind_ok, run_pure_ok] at h
    obtain ⟨s, m, hs, -, rfl⟩ := h
    exact symbolOf_ok hs
  | field node base name ih =>
    simp only [location, run_bind_ok, run_pure_ok] at h
    obtain ⟨s, m, hs, l, m', hl, -, rfl⟩ := h
    rw [ih hl, symbolOf_ok hs]

/-! ## The labels inside functions -/

theorem stem_of_connective (op : Connective) : connectiveStem op ∈ Label.stems := by
  cases op <;> decide

mutual

theorem expr_made : ∀ (e : Expr) {n n' : Nat} {c : Code}, (expr o b e).run n = .ok (c, n') →
    Made n n' e.stems c.labels
  | .int .., n, n', c, h | .bool .., n, n', c, h => by
    obtain ⟨rfl, rfl⟩ := run_pure_ok.1 h
    exact .nil n
  | .str .., n, n', c, h => by
    simp only [expr, stringLiteral, run_bind_ok, run_pure_ok] at h
    obtain ⟨l, m, hl, rfl, rfl⟩ := h
    obtain ⟨rfl, rfl⟩ := label_ok hl
    exact .one n (by decide)
  | .place q, n, n', c, h => by
    simp only [expr, run_bind_ok, run_pure_ok] at h
    obtain ⟨l, m, hl, rfl, rfl⟩ := h
    obtain rfl := location_ok hl
    exact .nil m
  | .assign _ target value, n, n', c, h => by
    simp only [expr, run_bind_ok, run_pure_ok] at h
    obtain ⟨v, m, hv, l, m', hl, rfl, rfl⟩ := h
    obtain rfl := location_ok hl
    simpa [Expr.stems] using expr_made value hv
  | .call _ callee args, n, n', c, h => by
    simp only [expr, run_bind_ok, run_pure_ok] at h
    obtain ⟨xs, m, hxs, rfl, rfl⟩ := h
    simpa [Expr.stems] using exprs_made args hxs
  | .unary _ op operand, n, n', c, h => by
    simp only [expr, run_bind_ok, run_pure_ok] at h
    obtain ⟨x, m, hx, rfl, rfl⟩ := h
    simpa [Expr.stems] using expr_made operand hx
  | .binary _ (.arith _) left right, n, n', c, h
  | .binary _ (.equality _) left right, n, n', c, h
  | .binary _ (.order _) left right, n, n', c, h => by
    simp only [expr, run_bind_ok, run_pure_ok] at h
    obtain ⟨l, m, hl, r, m', hr, rfl, rfl⟩ := h
    simpa [Expr.stems] using (expr_made left hl).append (expr_made right hr)
  | .binary _ (.logical op) left right, n, n', c, h => by
    simp only [expr, run_bind_ok, run_pure_ok] at h
    obtain ⟨stop, k, hstop, l, m, hl, r, m', hr, rfl, rfl⟩ := h
    obtain ⟨rfl, rfl⟩ := label_ok hstop
    have hlr := (expr_made left hl).append (expr_made right hr)
    -- the label is made first and stands last
    have hall := (Made.one n (stem_of_connective op)).append hlr
    simpa [Expr.stems] using hall.perm List.perm_append_comm

theorem exprs_made : ∀ (es : List Expr) {n n' : Nat} {c : Code},
    (exprs o b es).run n = .ok (c, n') → Made n n' (Expr.allStems es) c.labels
  | [], n, n', c, h => by
    obtain ⟨rfl, rfl⟩ := run_pure_ok.1 h
    exact .nil n
  | e :: es, n, n', c, h => by
    simp only [exprs, run_bind_ok, run_pure_ok] at h
    obtain ⟨x, m, hx, xs, m', hxs, rfl, rfl⟩ := h
    simpa [Expr.allStems] using (expr_made e hx).append (exprs_made es hxs)

end

theorem branchUnless_made {cond : Expr} {target : String}
    (h : (branchUnless o b cond target).run n = .ok (c, n')) : Made n n' cond.stems c.labels := by
  simp only [branchUnless, run_bind_ok, run_pure_ok] at h
  obtain ⟨x, m, hx, rfl, rfl⟩ := h
  simpa using expr_made cond hx

theorem step_made {delta : Int} {target : Place}
    (h : (step b delta target).run n = .ok (c, n')) : Made n n' [] c.labels := by
  simp only [step, run_bind_ok, run_pure_ok] at h
  obtain ⟨l, m, hl, rfl, rfl⟩ := h
  obtain rfl := location_ok hl
  simpa using Made.nil m

theorem printCall_ok {value : Expr} {x : Int} (h : (printCall b value).run n = .ok (x, n')) :
    n' = n := by
  unfold printCall at h
  split at h
  · exact (run_pure_ok.1 h).2.symm
  · exact (run_pure_ok.1 h).2.symm
  · cases h

variable {exit : String}

mutual

theorem stmt_made : ∀ (s : Stmt) {n n' : Nat} {c : Code},
    (stmt o b exit s).run n = .ok (c, n') → Made n n' s.stems c.labels
  | .assign _ node target value, n, n', c, h => by
    simp only [stmt, run_bind_ok, run_pure_ok] at h
    obtain ⟨x, m, hx, rfl, rfl⟩ := h
    simpa [Stmt.stems] using expr_made (.assign node target value) hx
  | .increment _ target, n, n', c, h | .decrement _ target, n, n', c, h => by
    simp only [stmt, run_bind_ok, run_pure_ok] at h
    obtain ⟨x, m, hx, rfl, rfl⟩ := h
    simpa [Stmt.stems] using step_made hx
  | .read _ target, n, n', c, h => by
    simp only [stmt, read, run_bind_ok, run_pure_ok] at h
    obtain ⟨l, m, hl, rfl, rfl⟩ := h
    obtain rfl := location_ok hl
    simpa [Stmt.stems] using Made.nil m
  | .write _ value, n, n', c, h => by
    simp only [stmt, write, run_bind_ok, run_pure_ok] at h
    obtain ⟨number, m, hnumber, x, m', hx, rfl, rfl⟩ := h
    obtain rfl := printCall_ok hnumber
    simpa [Stmt.stems] using expr_made value hx
  | .ifThen _ cond thenBody, n, n', c, h => by
    simp only [stmt, run_bind_ok, run_pure_ok] at h
    obtain ⟨stop, k, hstop, test, m, htest, code, m', hcode, rfl, rfl⟩ := h
    obtain ⟨rfl, rfl⟩ := label_ok hstop
    have hin := (branchUnless_made htest).append (body_made thenBody hcode)
    have hall := (Made.one n (show "if_end" ∈ Label.stems by decide)).append hin
    simpa [Stmt.stems] using hall.perm List.perm_append_comm
  | .ifElse _ cond thenBody elseBody, n, n', c, h => by
    simp only [stmt, run_bind_ok, run_pure_ok] at h
    obtain ⟨other, k, hother, stop, k', hstop, test, m, htest, code, m', hcode, code', m'', hcode',
      rfl, rfl⟩ := h
    obtain ⟨rfl, rfl⟩ := label_ok hother
    obtain ⟨rfl, rfl⟩ := label_ok hstop
    have hin := ((branchUnless_made htest).append (body_made thenBody hcode)).append
      (body_made elseBody hcode')
    have hends := (Made.one n (show "else" ∈ Label.stems by decide)).append
      (.one (n + 1) (show "if_end" ∈ Label.stems by decide))
    -- the labels are made first and stand behind the branches
    refine (hends.append hin).perm ?_
    rw [List.perm_iff_count]
    intro l
    simp only [labels_append, labels_remark, labels_bare, labels_label, labels_nil, List.count_append,
      List.count_cons, List.count_nil]
    omega
  | .whileLoop _ cond loopBody, n, n', c, h => by
    simp only [stmt, run_bind_ok, run_pure_ok] at h
    obtain ⟨start, k, hstart, stop, k', hstop, test, m, htest, code, m', hcode, rfl, rfl⟩ := h
    obtain ⟨rfl, rfl⟩ := label_ok hstart
    obtain ⟨rfl, rfl⟩ := label_ok hstop
    have hin := (branchUnless_made htest).append (body_made loopBody hcode)
    have hstops := ((Made.one (n + 1) (show "while_end" ∈ Label.stems by decide)).append
      hin).perm List.perm_append_comm
    simpa [Stmt.stems] using (Made.one n (show "while" ∈ Label.stems by decide)).append hstops
  | .call _ node callee args, n, n', c, h => by
    simp only [stmt, run_bind_ok, run_pure_ok] at h
    obtain ⟨x, m, hx, rfl, rfl⟩ := h
    simpa [Stmt.stems] using expr_made (.call node callee args) hx
  | .ret _ none, n, n', c, h => by
    simp only [stmt, returnValue, run_bind_ok, run_pure_ok] at h
    obtain ⟨x, m, ⟨rfl, rfl⟩, rfl, rfl⟩ := h
    simpa [Stmt.stems] using Made.nil n
  | .ret _ (some value), n, n', c, h => by
    simp only [stmt, returnValue, run_bind_ok, run_pure_ok] at h
    obtain ⟨_, m, ⟨x, m', hx, rfl, rfl⟩, rfl, rfl⟩ := h
    simpa [Stmt.stems] using expr_made value hx

theorem body_made : ∀ (t : Body) {n n' : Nat} {c : Code},
    (body o b exit t).run n = .ok (c, n') → Made n n' t.stems c.labels
  | .block _ ss, _, _, _, h => stmts_made ss h

theorem stmts_made : ∀ (ss : List Stmt) {n n' : Nat} {c : Code},
    (stmts o b exit ss).run n = .ok (c, n') → Made n n' (Stmt.allStems ss) c.labels
  | [], n, n', c, h => by
    obtain ⟨rfl, rfl⟩ := run_pure_ok.1 h
    exact .nil n
  | s :: ss, n, n', c, h => by
    simp only [stmts, run_bind_ok, run_pure_ok] at h
    obtain ⟨x, m, hx, xs, m', hxs, rfl, rfl⟩ := h
    simpa [Stmt.allStems] using (stmt_made s hx).append (stmts_made ss hxs)

end

theorem stmt_numbered (s : Stmt) (h : (stmt o b exit s).run n = .ok (c, n')) :
    Numbered n n' c.labels :=
  (stmt_made s h).numbered

theorem body_numbered (t : Body) (h : (body o b exit t).run n = .ok (c, n')) :
    Numbered n n' c.labels :=
  (body_made t h).numbered

end Code

/-! ## The labels of programs -/

namespace Decl

/-- The label of a variable, or of the start of a function. -/
def start? : Decl → Option String
  | var d => some (Label.global d.name.name)
  | struct _ => none
  | fn d => some (Label.function d.name.name)

/-- The label of the end of a function. -/
def exit? : Decl → Option String
  | fn d => some (Label.exit d.name.name)
  | _ => none

/-- A label tells the name that it is made of. -/
theorem start?_cases {d : Decl} {l : String} (h : d.start? = some l) :
    (l = "main" ∧ d.key = "main") ∨ l = Label.global d.key := by
  cases d with
  | var d => exact .inr (Option.some.inj h).symm
  | struct d => cases h
  | fn f =>
    have hl : Label.function f.name.name = l := Option.some.inj h
    unfold Label.function at hl
    split at hl
    · next hmain => exact .inl ⟨hl ▸ hmain, hmain⟩
    · exact .inr hl.symm

theorem fn_of_exit? {d : Decl} {l : String} (h : d.exit? = some l) :
    ∃ f, d = .fn f ∧ l = Label.exit f.name.name := by
  cases d with
  | var d => cases h
  | struct d => cases h
  | fn f => exact ⟨f, rfl, (Option.some.inj h).symm⟩

theorem start?_inj {d d' : Decl} {l : String} (h : d.start? = some l) (h' : d'.start? = some l) :
    d.key = d'.key := by
  rcases start?_cases h with ⟨rfl, hk⟩ | rfl
  · rcases start?_cases h' with ⟨-, hk'⟩ | hl'
    · rw [hk, hk']
    · exact absurd hl'.symm (Label.global_ne_main _)
  · rcases start?_cases h' with ⟨hl', -⟩ | hl'
    · exact absurd hl' (Label.global_ne_main _)
    · simpa [Label.global] using hl'

theorem exit?_inj {d d' : Decl} {l : String} (h : d.exit? = some l) (h' : d'.exit? = some l) :
    d.key = d'.key := by
  obtain ⟨f, rfl, rfl⟩ := fn_of_exit? h
  obtain ⟨f', rfl, hl⟩ := fn_of_exit? h'
  simpa [Label.exit, key] using hl

/-- Which declarations have the label of the end of a function. -/
theorem start?_eq_exit {d : Decl} {x : String} (hx : x ≠ "") :
    d.start? = some (Label.exit x) ↔ ∃ z, x = "_" ++ z ∧ d.value? = some (z ++ "_exit") := by
  cases d with
  | var d =>
    simp only [start?, value?, Option.some.injEq, ← Label.exit_eq_global hx]
    exact eq_comm
  | struct d => simp [start?, value?]
  | fn f =>
    simp only [start?, value?, Option.some.injEq, ← Label.exit_eq_global hx]
    unfold Label.function
    split
    · next hmain =>
      constructor
      · intro h
        exact absurd (hmain ▸ h.symm) (Label.exit_ne_main x)
      · intro h
        obtain ⟨z, -, hz⟩ := (Label.exit_eq_global hx).1 h
        exact absurd (hmain ▸ hz.symm) (Label.exit_ne_main z)
    · exact eq_comm

end Decl

namespace Code

variable {o : Options} {b : Annotations} {n n' : Nat} {c : Code}

theorem decl_made {d : Decl} (h : (decl o b d).run n = .ok (c, n')) :
    ∃ inner, Made n n' d.stems inner ∧
      c.labels.Perm (d.start?.toList ++ (d.exit?.toList ++ inner)) := by
  cases d with
  | var d =>
    simp only [decl, globalVar] at h
    split at h
    · obtain ⟨rfl, rfl⟩ := run_pure_ok.1 h
      exact ⟨[], .nil n, .refl _⟩
    · cases h
  | struct d =>
    obtain ⟨rfl, rfl⟩ := run_pure_ok.1 h
    exact ⟨[], .nil n, .refl _⟩
  | fn f =>
    simp only [decl, fnDecl, run_bind_ok, run_pure_ok] at h
    obtain ⟨info, m, hinfo, code, m', hcode, rfl, rfl⟩ := h
    have hm : m = n := by
      unfold fnInfo at hinfo
      split at hinfo
      · exact (run_pure_ok.1 hinfo).2.symm
      · cases hinfo
    subst hm
    refine ⟨code.labels, body_made f.body hcode, ?_⟩
    have hglobl : labels (if f.isMain then [.globl "main"] else []) = [] := by
      split <;> rfl
    simp only [labels_append, labels_remark, hglobl, labels_prologue, labels_epilogue, labels_label,
      labels_nil, List.append_nil, Decl.start?, Decl.exit?, Option.toList_some]
    exact .cons _ List.perm_append_comm

theorem decls_made {ds : List Decl} (h : (decls o b ds).run n = .ok (c, n')) :
    ∃ inner, Made n n' (ds.flatMap Decl.stems) inner ∧
      c.labels.Perm (ds.filterMap Decl.start? ++ (ds.filterMap Decl.exit? ++ inner)) := by
  induction ds generalizing n c with
  | nil =>
    obtain ⟨rfl, rfl⟩ := run_pure_ok.1 h
    exact ⟨[], .nil n, .refl _⟩
  | cons d ds ih =>
    simp only [decls, run_bind_ok, run_pure_ok] at h
    obtain ⟨x, m, hx, xs, m', hxs, rfl, rfl⟩ := h
    obtain ⟨inner, hin, hp⟩ := decl_made hx
    obtain ⟨inner', hin', hp'⟩ := ih hxs
    have hcons : ∀ f : Decl → Option String,
        (d :: ds).filterMap f = (f d).toList ++ ds.filterMap f := by
      intro f
      cases hf : f d <;> simp [hf]
    refine ⟨inner ++ inner', hin.append hin', ?_⟩
    rw [labels_append, hcons, hcons]
    rw [List.perm_iff_count] at hp hp' ⊢
    intro l
    have := hp l
    have := hp' l
    simp only [List.count_append] at *
    omega

theorem decls_labels {ds : List Decl} (h : (decls o b ds).run n = .ok (c, n')) :
    ∃ inner, Numbered n n' inner ∧
      c.labels.Perm (ds.filterMap Decl.start? ++ (ds.filterMap Decl.exit? ++ inner)) := by
  obtain ⟨inner, hinner, hperm⟩ := decls_made h
  exact ⟨inner, hinner.numbered, hperm⟩

end Code

/-- What declarations make of names that differ differs. -/
theorem nodup_filterMap_decls {ds : List Decl} (h : (ds.map Decl.key).Nodup)
    {f : Decl → Option String}
    (hf : ∀ {d d' l}, f d = some l → f d' = some l → d.key = d'.key) : (ds.filterMap f).Nodup := by
  rw [List.Nodup, List.pairwise_map] at h
  rw [List.Nodup, List.pairwise_filterMap]
  refine h.imp fun hne l hl l' hl' heq => ?_
  subst heq
  exact hne (hf hl hl')

/-- **When the labels of a file are different.** No two labels are the same, but for the label at
the end of a function `_x`, which is that of a variable or a function `x_exit`. -/
theorem labels_nodup_iff {source : String} {o : Options} {code : Code}
    (hcompile : (compile source o).1 = .ok (some code)) {ts : Lexer.Tokens} {p : Program}
    (hlex : tokenize source = .ok ts) (hparse : parse ts.lexemes = .ok p) :
    code.labels.Nodup ↔
      ∀ f x, Decl.fn f ∈ p.decls → f.name.name = "_" ++ x →
        ∀ d ∈ p.decls, d.value? ≠ some (x ++ "_exit") := by
  obtain ⟨p', b, m, han, hgen⟩ := compile_ok hcompile
  have hready := han.ready.1
  obtain ⟨hlex', hparse', -, -, -⟩ := han
  obtain rfl := Except.ok.inj (hlex.symm.trans hlex')
  obtain rfl := Except.ok.inj (hparse.symm.trans hparse')
  obtain ⟨inner, hin, hperm⟩ := Code.decls_labels hgen
  have hword : ∀ f, Decl.fn f ∈ p.decls → f.name.name ≠ "" := fun f hf =>
    Binding.isWord_ne_empty ((wf_of_parse hlex hparse).1 (.ident f.name.name)
      (List.mem_flatMap.2 ⟨_, hf, by simp [Decl.tokens]⟩)).1
  have hentries : (p.decls.filterMap Decl.start?).Nodup :=
    nodup_filterMap_decls hready.resolved.nodup Decl.start?_inj
  have hexits : (p.decls.filterMap Decl.exit?).Nodup :=
    nodup_filterMap_decls hready.resolved.nodup Decl.exit?_inj
  -- labels with numbers are like no others, so a clash is one of a start and an end
  have hstart : ∀ l ∈ p.decls.filterMap Decl.start?, ∀ l' ∈ inner, l ≠ l' := by
    intro l hl l' hl'
    obtain ⟨d, -, hd⟩ := List.mem_filterMap.1 hl
    obtain ⟨stem, hstem, k, -, -, rfl⟩ := hin.made l' hl'
    rcases Decl.start?_cases hd with ⟨rfl, -⟩ | rfl
    · exact (Label.numbered_ne (by decide)).symm
    · exact (Label.numbered_ne_global hstem _ k).symm
  have hend : ∀ l ∈ p.decls.filterMap Decl.exit?, ∀ l' ∈ inner, l ≠ l' := by
    intro l hl l' hl'
    obtain ⟨d, -, hd⟩ := List.mem_filterMap.1 hl
    obtain ⟨stem, -, k, -, -, rfl⟩ := hin.made l' hl'
    obtain ⟨f, -, rfl⟩ := Decl.fn_of_exit? hd
    exact (Label.numbered_ne_exit stem _ k).symm
  rw [hperm.nodup_iff, List.nodup_append, List.nodup_append]
  constructor
  · rintro ⟨-, -, hne⟩ f x hf hx d hd hval
    have hlabel : d.start? = some (Label.exit f.name.name) :=
      (Decl.start?_eq_exit (hword f hf)).2 ⟨x, hx, hval⟩
    exact hne _ (List.mem_filterMap.2 ⟨d, hd, hlabel⟩) _
      (List.mem_append_left _ (List.mem_filterMap.2 ⟨_, hf, rfl⟩)) rfl
  · intro hclear
    refine ⟨hentries, ⟨hexits, hin.nodup, hend⟩, fun l hl l' hl' => ?_⟩
    rcases List.mem_append.1 hl' with hl' | hl'
    · rintro rfl
      obtain ⟨d, hd, hlabel⟩ := List.mem_filterMap.1 hl
      obtain ⟨d', hd', hexit⟩ := List.mem_filterMap.1 hl'
      obtain ⟨f, rfl, rfl⟩ := Decl.fn_of_exit? hexit
      obtain ⟨x, hx, hval⟩ := (Decl.start?_eq_exit (hword f hd')).1 hlabel
      exact hclear f x hd' hx d hd hval
    · exact hstart l hl l' hl'

/-- Names like labels, in a program whose labels are different all the same. -/
theorem labels_nodup_iff_names :
    ∃ code, (compile "int _f_exit; void f() \x7b \x7d void _f() \x7b \x7d void main() \x7b \x7d" {}).1 =
      .ok (some code) ∧ code.labels.Nodup := by
  obtain ⟨p, b, code, m, han, -, hcompile, hnames, -⟩ := exists_of_compiled
    "int _f_exit; void f() \x7b \x7d void _f() \x7b \x7d void main() \x7b \x7d"
    (fun p => p.decls.filterMap Decl.value? = ["_" ++ "f_exit", "f", "_" ++ "f", "main"])
    (fun _ => true) (by decide +kernel) (by decide +kernel)
  simp only [decide_eq_true_eq] at hnames
  have hname : ∀ {d : Decl} {x : String}, d ∈ p.decls → d.value? = some x →
      x = "_" ++ "f_exit" ∨ x = "f" ∨ x = "_" ++ "f" ∨ x = "main" := by
    intro d x hd hx
    have hmem : x ∈ p.decls.filterMap Decl.value? := List.mem_filterMap.2 ⟨d, hd, hx⟩
    simpa only [hnames, List.mem_cons, List.not_mem_nil, or_false] using hmem
  have hhead : ∀ {x y : String}, "_" ++ x = y → y.toList.head? = some '_' := by
    rintro x _ rfl
    simp
  obtain ⟨hlex, hparse, -, -, -⟩ := han
  refine ⟨code, hcompile, (labels_nodup_iff hcompile hlex hparse).2 fun f x hf hx d hd hval => ?_⟩
  rcases hname hf (congrArg some hx) with h | h | h | h
  · obtain rfl := (String.append_right_inj _).1 h
    exact absurd (hname hd hval) (by decide)
  · exact absurd (hhead h) (by decide)
  · obtain rfl := (String.append_right_inj _).1 h
    exact absurd (hname hd hval) (by decide)
  · exact absurd (hhead h) (by decide)

/-- The end of a function `_x` has the label of a variable `x_exit`. -/
theorem labels_clash_underscore :
    ∃ code, (compile "int x_exit; void _x() \x7b \x7d void main() \x7b \x7d" {}).1 = .ok (some code) ∧
      ¬ code.labels.Nodup := by
  obtain ⟨-, -, code, -, -, -, hcompile, hlabels⟩ := exists_of_code
    "int x_exit; void _x() \x7b \x7d void main() \x7b \x7d" (fun code => ¬ code.labels.Nodup)
    (by decide +kernel)
  exact ⟨code, hcompile, by simpa using hlabels⟩

end FlatC
