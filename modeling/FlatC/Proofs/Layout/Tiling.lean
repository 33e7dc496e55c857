import FlatC.Proofs.Layout.Moves
import FlatC.Proofs.Yields

/-!
# Where symbols lie

The numbers of symbols that are declared together follow each other, so where they lie can be
said by numbers alone. With `total n c` for the bytes of the `c` symbols from `n` on, field
`i` of a struct lies behind `total n i` bytes, and local `i` of a function `total n i` bytes
below the first (`Placed`). `placeSymbols_placed` says that layout ends, with that.
-/

namespace FlatC

namespace Annotations

/-- The bytes of a symbol. -/
def sizeAt (a : Annotations) (k : Nat) : Nat := ((a.symbol? k).map Symbol.size).getD 0

/-- Where a symbol lies from the frame pointer. -/
def offsetAt (a : Annotations) (k : Nat) : Int := ((a.symbol? k).map Symbol.offset).getD 0

/-- Where a symbol lies from the start of its struct. -/
def fieldOffsetAt (a : Annotations) (k : Nat) : Int :=
  ((a.symbol? k).map Symbol.fieldOffset).getD 0

/-- The bytes of the `c` symbols from `n` on. -/
def total (a : Annotations) (n : Nat) : Nat → Nat
  | 0 => 0
  | c + 1 => a.total n c + a.sizeAt (n + c)

variable {a b : Annotations} {n m k base : Nat}

theorem total_succ (n c : Nat) : a.total n (c + 1) = a.sizeAt n + a.total (n + 1) c := by
  induction c with
  | zero => simp [total]
  | succ c ih =>
    rw [total, ih, total, Nat.add_assoc, Nat.add_assoc n 1 c, Nat.add_comm 1 c]

theorem total_mono {i j : Nat} (h : i ≤ j) : a.total n i ≤ a.total n j := by
  induction h with
  | refl => exact Nat.le_refl _
  | step _ ih => exact Nat.le_trans ih (Nat.le_add_right _ _)

/-- A later symbol lies behind all the bytes of an earlier one. -/
theorem total_add_sizeAt_le {i j : Nat} (h : i < j) :
    a.total n i + a.sizeAt (n + i) ≤ a.total n j :=
  total_mono (a := a) (n := n) (i := i + 1) h

theorem sizeAt_congr (h : b.symbol? k = a.symbol? k) : b.sizeAt k = a.sizeAt k := by
  rw [sizeAt, h]; rfl

theorem offsetAt_congr (h : b.symbol? k = a.symbol? k) : b.offsetAt k = a.offsetAt k := by
  rw [offsetAt, h]; rfl

theorem fieldOffsetAt_congr (h : b.symbol? k = a.symbol? k) :
    b.fieldOffsetAt k = a.fieldOffsetAt k := by
  rw [fieldOffsetAt, h]; rfl

/-- The bytes depend on those symbols only. -/
theorem total_congr {c : Nat} (h : ∀ i, n ≤ i → i < n + c → b.symbol? i = a.symbol? i) :
    b.total n c = a.total n c := by
  induction c with
  | zero => rfl
  | succ c ih =>
    rw [total, total, ih fun i hi hc => h i hi (by omega),
      sizeAt_congr (h (n + c) (by omega) (by omega))]

/-- The symbol `k` is as large as a variable of its type is; its struct is one of the symbols
below `base`. -/
def Fitted (a : Annotations) (base k : Nat) : Prop :=
  ∃ s, a.symbol? k = some s ∧
    match s.definition? with
    | none => s.size = wordSize
    | some d => (d : Nat) < base ∧ s.size = a.sizeAt d

theorem Fitted.congr (h : a.Fitted base k) (hk : b.symbol? k = a.symbol? k)
    (hb : ∀ i : Nat, i < base → b.symbol? i = a.symbol? i) : b.Fitted base k := by
  obtain ⟨s, hs, hsize⟩ := h
  refine ⟨s, hk.trans hs, ?_⟩
  cases hd : s.definition? with
  | none => simpa [hd] using hsize
  | some d =>
    simp only [hd] at hsize ⊢
    exact ⟨hsize.1, hsize.2.trans (sizeAt_congr (hb d hsize.1)).symm⟩

theorem Fitted.shift {n m : Nat} (h : a.Fitted base k) (hs : a.Shifts b n m) (hbase : base ≤ n)
    (hk : k < n ∨ m ≤ k) : b.Fitted base k :=
  h.congr (hs.kept hk) fun i hi => hs.kept (.inl (by omega))

/-- The symbols from `n` on are those of the declarations `ds`, and what they are made of is
below `base`. -/
def Holds (a : Annotations) (base : Nat) : Nat → List VarDecl → Prop
  | _, [] => True
  | n, d :: ds =>
    (a.linked? d.name.id = some n ∧
      ∃ s, a.symbol? n = some s ∧ ∀ d, s.definition? = some d → (d : Nat) < base) ∧
    a.Holds base (n + 1) ds

theorem Holds.shift {ds : List VarDecl} {i j : Nat} (h : a.Holds base n ds)
    (hs : a.Shifts b i j) : b.Holds base n ds := by
  induction ds generalizing n with
  | nil => trivial
  | cons d ds ih =>
    obtain ⟨⟨hl, s, hk, hd⟩, hrest⟩ := h
    obtain ⟨s', hk', hm⟩ := hs.moved hk
    exact ⟨⟨(hs.linked? _).trans hl, s', hk', fun d hd' => hd d (hm.definition? ▸ hd')⟩, ih hrest⟩

end Annotations

open Annotations

namespace Layout

variable {a : Annotations} {n k base : Nat} {d : VarDecl} {β : Type}

theorem symbol_yields {s : Symbol} (h : a.symbol? k = some s) :
    Yields (symbol k) a fun r b => s = r ∧ a = b := by
  refine .getBind ?_
  rw [h]
  exact .pure ⟨rfl, rfl⟩

theorem update_yields {f : Symbol → Symbol} {s : Symbol} (h : a.symbol? k = some s) :
    Yields (update k f) a fun _ b => b = a.update k f := by
  refine .bind (symbol_yields h) ?_
  rintro _ _ ⟨rfl, rfl⟩
  exact .modify rfl

theorem resolved_yields {name : Ident} (h : a.linked? name.id = some k) :
    Yields (resolved name) a fun r b => k = r ∧ a = b := by
  refine .getBind ?_
  rw [h]
  exact .pure ⟨rfl, rfl⟩

/-- What a variable is given first: its number, and its size. -/
theorem sized_yields {s : Symbol} (hl : a.linked? d.name.id = some n)
    (hs : a.symbol? n = some s) (hbase : base ≤ n)
    (hd : ∀ d, s.definition? = some d → (d : Nat) < base) :
    Yields (sized d) a fun r b => r = (n, b.sizeAt n) ∧ a.Shifts b n (n + 1) ∧
      b.Fitted base n := by
  have size_yields : Yields (sizeOf n) a fun size b => a = b ∧
      match s.definition? with
      | none => size = wordSize
      | some d => size = a.sizeAt d := by
    refine .bind (symbol_yields hs) ?_
    rintro _ _ ⟨rfl, rfl⟩
    cases hdef : s.definition? with
    | none => exact .pure ⟨rfl, rfl⟩
    | some d =>
      have hlt : (d : Nat) < a.symbols.size := Nat.lt_trans (Nat.lt_of_lt_of_le (hd d hdef) hbase)
        (symbol?_lt hs)
      obtain ⟨sd, hsd⟩ := exists_symbol? hlt
      refine .bind (symbol_yields hsd) ?_
      rintro _ _ ⟨rfl, rfl⟩
      exact .pure ⟨rfl, by simp [sizeAt, hsd]⟩
  refine .bind (resolved_yields hl) ?_
  rintro _ _ ⟨rfl, rfl⟩
  refine .bind size_yields ?_
  rintro size _ ⟨rfl, hsize⟩
  refine .bind (update_yields hs) ?_
  rintro _ _ rfl
  have hnew : (a.update n ({ · with size })).symbol? n = some { s with size } := by
    rw [symbol?_update, if_pos rfl, hs]
    rfl
  have hsh : a.Shifts (a.update n ({ · with size })) n (n + 1) :=
    shifts_update (Nat.le_refl n) (Nat.lt_succ_self n) fun s => .of_kind rfl rfl rfl rfl
  refine .pure ⟨by simp [sizeAt, hnew], hsh, _, hnew, ?_⟩
  have hsame : Symbol.definition? { s with size } = s.definition? := rfl
  rw [hsame]
  cases hdef : s.definition? with
  | none => simpa [hdef] using hsize
  | some d =>
    simp only [hdef] at hsize ⊢
    have hlt : (d : Nat) < n := Nat.lt_of_lt_of_le (hd d hdef) hbase
    exact ⟨hd d hdef, hsize.trans (sizeAt_congr (hsh.kept (.inl hlt))).symm⟩

/-- Writing down where a variable lies leaves its size alone. -/
theorem fitted_update {f : Symbol → Symbol} (h : a.Fitted base n) (hbase : base ≤ n)
    (hf : ∀ s : Symbol, s.Moved (f s) ∧ (f s).size = s.size) :
    a.Shifts (a.update n f) n (n + 1) ∧ (a.update n f).Fitted base n ∧
      (a.update n f).sizeAt n = a.sizeAt n ∧
      ∃ s, a.symbol? n = some s ∧ (a.update n f).symbol? n = some (f s) := by
  obtain ⟨s, hs, hsize⟩ := h
  have hsh : a.Shifts (a.update n f) n (n + 1) :=
    shifts_update (Nat.le_refl n) (Nat.lt_succ_self n) fun s => (hf s).1
  have hnew : (a.update n f).symbol? n = some (f s) := by
    rw [symbol?_update, if_pos rfl, hs]
    rfl
  refine ⟨hsh, ⟨f s, hnew, ?_⟩, by simp [sizeAt, hnew, hs, (hf s).2], s, hs, hnew⟩
  rw [(hf s).1.definition?, (hf s).2]
  cases hdef : s.definition? with
  | none => simpa [hdef] using hsize
  | some d =>
    simp only [hdef] at hsize ⊢
    have hlt : (d : Nat) < n := Nat.lt_of_lt_of_le hsize.1 hbase
    exact ⟨hsize.1, hsize.2.trans (sizeAt_congr (hsh.kept (.inl hlt))).symm⟩

/-- A variable is given its size and its place, and then the others theirs. -/
theorem placed_bind {f : Symbol → Symbol} {g : Nat → Layout β} {Q : β → Annotations → Prop}
    {ds : List VarDecl} (h : a.Holds base n (d :: ds)) (hbase : base ≤ n)
    (hf : ∀ s : Symbol, s.Moved (f s) ∧ (f s).size = s.size)
    (hg : ∀ b s, a.Shifts b n (n + 1) → b.Fitted base n → b.symbol? n = some (f s) →
      b.Holds base (n + 1) ds → Yields (g (b.sizeAt n)) b Q) :
    Yields (do let (id, size) ← sized d; update id f; g size) a Q := by
  obtain ⟨⟨hl, s, hs, hd⟩, htail⟩ := h
  refine .bind (sized_yields hl hs hbase hd) ?_
  rintro _ b ⟨rfl, hsh, hfit⟩
  obtain ⟨s', hs', -⟩ := id hfit
  refine .bind (update_yields hs') ?_
  rintro _ _ rfl
  obtain ⟨hsh', hfit', hsize, s'', -, hnew⟩ := fitted_update hfit hbase hf
  rw [← hsize]
  exact hg _ s'' (hsh.trans hsh') hfit' hnew (htail.shift (hsh.trans hsh'))

/-! ## The variables of a declaration -/

/-- The `c` symbols from `n` on have their sizes. -/
def AllFitted (a : Annotations) (base n c : Nat) : Prop :=
  ∀ i, i < c → a.Fitted base (n + i)

theorem AllFitted.shift {b : Annotations} {c l m : Nat} (h : AllFitted a base n c)
    (hs : a.Shifts b l m) (hbase : base ≤ l) (hc : n + c ≤ l) : AllFitted b base n c :=
  fun i hi => (h i hi).shift hs hbase (.inl (by omega))

theorem AllFitted.cons {c : Nat} (h : a.Fitted base n) (h' : AllFitted a base (n + 1) c) :
    AllFitted a base n (c + 1) := by
  intro i hi
  cases i with
  | zero => exact h
  | succ i =>
    have := h' i (by omega)
    rwa [Nat.add_assoc, Nat.add_comm 1] at this

/-- A variable that has its place, and those behind it. -/
theorem placed_cons {b c : Annotations} {l : Nat} (hbase : base ≤ n) (hsh : a.Shifts b n (n + 1))
    (hfit : b.Fitted base n) (hsh' : b.Shifts c (n + 1) (n + 1 + l))
    (hall : AllFitted c base (n + 1) l) :
    a.Shifts c n (n + (l + 1)) ∧ AllFitted c base n (l + 1) ∧ c.symbol? n = b.symbol? n := by
  have hcount : n + (l + 1) = n + 1 + l := by omega
  refine ⟨?_, ?_, hsh'.kept (.inl (Nat.lt_succ_self n))⟩
  · rw [hcount]
    exact hsh.append hsh' (by omega) (by omega)
  · exact .cons (hfit.shift hsh' (Nat.le_succ_of_le hbase) (.inl (Nat.lt_succ_self n))) hall

/-- Local variables follow each other downwards. -/
theorem locals_yields (ds : List VarDecl) {a : Annotations} {n : Nat} {offset : Int}
    (h : a.Holds base n ds) (hbase : base ≤ n) :
    Yields (locals offset ds) a fun stop b => a.Shifts b n (n + ds.length) ∧
      AllFitted b base n ds.length ∧
      (∀ i, i < ds.length → b.offsetAt (n + i) = offset - b.total n i) ∧
      stop = offset - b.total n ds.length := by
  induction ds generalizing a n offset with
  | nil => exact .pure ⟨.refl a _ _, nofun, nofun, by simp [total]⟩
  | cons d ds ih =>
    refine placed_bind (f := ({ · with offset })) (g := fun size => locals (offset - size) ds) h
      hbase (fun s => ⟨.of_kind rfl rfl rfl rfl, rfl⟩) ?_
    intro b s hsh hfit hnew htail
    refine (ih htail (Nat.le_succ_of_le hbase)).mono ?_
    rintro stop c ⟨hsh', hall, hoffset, rfl⟩
    obtain ⟨hsh'', hall', hkept⟩ := placed_cons hbase hsh hfit hsh' hall
    have hsize : c.sizeAt n = b.sizeAt n := sizeAt_congr hkept
    refine ⟨hsh'', hall', ?_, ?_⟩
    · intro i hi
      cases i with
      | zero => simp [offsetAt, hkept, hnew, total]
      | succ i =>
        have := hoffset i (by simpa using hi)
        rw [total_succ, hsize, ← Nat.add_assoc, Nat.add_right_comm, this]
        omega
    · rw [List.length_cons, total_succ, hsize]
      omega

/-- Fields follow each other, too. -/
theorem fields_yields (ds : List VarDecl) {a : Annotations} {n used : Nat}
    (h : a.Holds base n ds) (hbase : base ≤ n) :
    Yields (fields used ds) a fun size b => a.Shifts b n (n + ds.length) ∧
      AllFitted b base n ds.length ∧
      (∀ i, i < ds.length → b.fieldOffsetAt (n + i) = -((used + b.total n i : Nat) : Int)) ∧
      size = used + b.total n ds.length := by
  induction ds generalizing a n used with
  | nil => exact .pure ⟨.refl a _ _, nofun, nofun, by simp [total]⟩
  | cons d ds ih =>
    refine placed_bind (f := ({ · with fieldOffset := -(used : Int) }))
      (g := fun size => fields (used + size) ds) h hbase
      (fun s => ⟨.of_kind rfl rfl rfl rfl, rfl⟩) ?_
    intro b s hsh hfit hnew htail
    refine (ih htail (Nat.le_succ_of_le hbase)).mono ?_
    rintro stop c ⟨hsh', hall, hoffset, rfl⟩
    obtain ⟨hsh'', hall', hkept⟩ := placed_cons hbase hsh hfit hsh' hall
    have hsize : c.sizeAt n = b.sizeAt n := sizeAt_congr hkept
    refine ⟨hsh'', hall', ?_, ?_⟩
    · intro i hi
      cases i with
      | zero => simp [fieldOffsetAt, hkept, hnew, total]
      | succ i =>
        have := hoffset i (by simpa using hi)
        rw [total_succ, hsize, ← Nat.add_assoc, Nat.add_right_comm, this, Nat.add_assoc used]
    · rw [List.length_cons, total_succ, hsize, Nat.add_assoc]

/-- What is made of no struct is a word. -/
theorem sizeAt_of_fitted_zero (h : a.Fitted 0 k) : a.sizeAt k = wordSize := by
  obtain ⟨s, hs, hsize⟩ := h
  cases hd : s.definition? with
  | none => simpa [sizeAt, hs, hd] using hsize
  | some d => simp [hd] at hsize

/-- Parameters are words that follow each other downwards. -/
theorem params_yields (ps : List Param) {a : Annotations} {n : Nat} {offset : Int}
    (h : a.Holds 0 n (ps.map Param.decl)) :
    Yields (params offset ps) a fun _ b => a.Shifts b n (n + ps.length) ∧
      AllFitted b 0 n ps.length ∧
      ∀ i, i < ps.length → b.offsetAt (n + i) = offset - (wordSize * i : Nat) := by
  induction ps generalizing a n offset with
  | nil => exact .pure ⟨.refl a _ _, nofun, nofun⟩
  | cons p ps ih =>
    refine placed_bind (f := ({ · with offset })) (g := fun _ => params (offset - wordSize) ps) h
      (Nat.zero_le n) (fun s => ⟨.of_kind rfl rfl rfl rfl, rfl⟩) ?_
    intro b s hsh hfit hnew htail
    refine (ih htail).mono ?_
    rintro _ c ⟨hsh', hall, hoffset⟩
    obtain ⟨hsh'', hall', hkept⟩ := placed_cons (Nat.zero_le n) hsh hfit hsh' hall
    refine ⟨hsh'', hall', fun i hi => ?_⟩
    cases i with
    | zero => simp [offsetAt, hkept, hnew]
    | succ i =>
      have := hoffset i (by simpa using hi)
      rw [← Nat.add_assoc, Nat.add_right_comm, this, Nat.mul_succ]
      omega

/-! The blocks of a function are placed as if all were one. -/

theorem locals_append (ds es : List VarDecl) (offset : Int) :
    locals offset (ds ++ es) = locals offset ds >>= fun offset => locals offset es := by
  induction ds generalizing offset with
  | nil => simp [locals]
  | cons d ds ih => simp [locals, ih]

mutual

theorem body_eq_locals : ∀ (b : Body) (offset : Int), body offset b = locals offset b.allDecls
  | .block decls ss, offset => by
    simp only [body, Body.allDecls, locals_append, stmts_eq_locals ss]

theorem stmt_eq_locals : ∀ (s : Stmt) (offset : Int), stmt offset s = locals offset s.allDecls
  | .ifThen _ _ b, offset | .whileLoop _ _ b, offset => by
    simp only [stmt, Stmt.allDecls, body_eq_locals b]
  | .ifElse _ _ b b', offset => by
    simp only [stmt, Stmt.allDecls, locals_append, body_eq_locals b, body_eq_locals b']
  | .assign .., _ | .increment .., _ | .decrement .., _ | .read .., _ | .write .., _
  | .call .., _ | .ret .., _ => by simp only [stmt, Stmt.allDecls, locals]

theorem stmts_eq_locals : ∀ (ss : List Stmt) (offset : Int),
    stmts offset ss = locals offset (Stmt.manyDecls ss)
  | [], offset => by simp only [stmts, Stmt.manyDecls, locals]
  | s :: ss, offset => by
    simp only [stmts, Stmt.manyDecls, locals_append, stmt_eq_locals s, stmts_eq_locals ss]

end

theorem body_yields (b : Body) {offset : Int} (h : a.Holds base n b.allDecls) (hbase : base ≤ n) :
    Yields (body offset b) a fun stop c => a.Shifts c n (n + b.allDecls.length) ∧
      AllFitted c base n b.allDecls.length ∧
      (∀ i, i < b.allDecls.length → c.offsetAt (n + i) = offset - c.total n i) ∧
      stop = offset - c.total n b.allDecls.length := by
  rw [body_eq_locals]
  exact locals_yields _ h hbase

end Layout

/-! ## Declarations -/

open Binding Layout

namespace Annotations

/-- The `c` fields of a struct have the symbols from `n` on, and the struct the one behind them. -/
structure StructPlaced (a : Annotations) (n c : Nat) : Prop where
  fitted : AllFitted a n n c
  offset : ∀ i, i < c → a.fieldOffsetAt (n + i) = -(a.total n i : Int)
  size : a.sizeAt (n + c) = a.total n c

/-- A function has the symbol `n`, its `p` parameters the symbols behind it, and its `l` local
variables those behind them. -/
structure FramePlaced (a : Annotations) (n p l : Nat) : Prop where
  params : AllFitted a 0 (n + 1) p
  paramOffset : ∀ i, i < p → a.offsetAt (n + 1 + i) = -((wordSize * i : Nat) : Int)
  locals : AllFitted a n (n + 1 + p) l
  localOffset : ∀ i, i < l →
    a.offsetAt (n + 1 + p + i) = -((wordSize * p + savedSpace + a.total (n + 1 + p) i : Nat) : Int)
  info : ∃ s info, a.symbol? n = some s ∧ s.fnInfo? = some info ∧
    info.formalSpace = wordSize * p ∧ info.localSpace = a.total (n + 1 + p) l

/-- What is declared has its place. -/
def Placed (a : Annotations) (n : Nat) : Decl → Prop
  | .var _ => a.Fitted n n
  | .struct d => a.StructPlaced n d.fields.length
  | .fn d => a.FramePlaced n d.params.length d.body.allDecls.length

def AllPlaced (a : Annotations) : Nat → List Decl → Prop
  | _, [] => True
  | n, d :: ds => a.Placed n d ∧ a.AllPlaced (n + d.symbolCount) ds

variable {a b : Annotations} {n m base : Nat}

/-- Where something lies depends on no symbol behind it. -/
theorem Placed.shift {d : Decl} {l : Nat} (h : a.Placed n d) (hs : a.Shifts b m l)
    (hm : n + d.symbolCount ≤ m) : b.Placed n d := by
  cases d with
  | var d =>
    have hm' : n + 1 ≤ m := hm
    exact Fitted.shift h hs (by omega) (.inl (by omega))
  | struct d =>
    have hm' : n + (d.fields.length + 1) ≤ m := hm
    have htotal : ∀ i, i ≤ d.fields.length → b.total n i = a.total n i := fun i hi =>
      total_congr fun j _ hj => hs.kept (.inl (by omega))
    refine ⟨AllFitted.shift h.fitted hs (by omega) (by omega), fun i hi => ?_, ?_⟩
    · rw [fieldOffsetAt_congr (hs.kept (.inl (by omega))), htotal i (by omega)]
      exact h.offset i hi
    · rw [sizeAt_congr (hs.kept (.inl (by omega))), htotal _ (Nat.le_refl _)]
      exact h.size
  | fn d =>
    have hm' : n + (1 + d.params.length + d.body.allDecls.length) ≤ m := hm
    have htotal : ∀ i, i ≤ d.body.allDecls.length →
        b.total (n + 1 + d.params.length) i = a.total (n + 1 + d.params.length) i := fun i hi =>
      total_congr fun j _ hj => hs.kept (.inl (by omega))
    refine ⟨h.params.shift hs (by omega) (by omega), fun i hi => ?_,
      h.locals.shift hs (by omega) (by omega), fun i hi => ?_, ?_⟩
    · rw [offsetAt_congr (hs.kept (.inl (by omega)))]
      exact h.paramOffset i hi
    · rw [offsetAt_congr (hs.kept (.inl (by omega))), htotal i (by omega)]
      exact h.localOffset i hi
    · obtain ⟨s, info, hsym, hinfo⟩ := h.info
      refine ⟨s, info, (hs.kept (.inl (by omega))).trans hsym, ?_⟩
      rw [htotal _ (Nat.le_refl _)]
      exact hinfo

end Annotations

/-- The structs that are in scope have symbols below `n`. -/
def StructsBelow (a : Annotations) (env : List Decl) (n : Nat) : Prop :=
  ∀ sd d, Decl.struct sd ∈ env → a.Links sd.name.id d → (d : Nat) < n

section

variable {p : Program} {a : Annotations} {env : List Decl} {n : Nat}

/-- The struct that a declaration declares has a symbol of the declaration. -/
theorem StructsBelow.cons {d : Decl} (h : Resolved p a) (hb : DeclBound a env n d)
    (hbelow : StructsBelow a env n) : StructsBelow a (d :: env) (n + d.symbolCount) := by
  intro sd k hmem hl
  obtain rfl | hmem := List.mem_cons.1 hmem
  · obtain ⟨-, hlink, -⟩ := hb
    obtain rfl := h.unique hlink hl
    exact Nat.lt_succ_self _
  · exact Nat.lt_of_lt_of_le (hbelow sd k hmem hl) (Nat.le_add_right n _)

theorem StructsBelow.shift {b : Annotations} {l m : Nat} (h : StructsBelow a env n)
    (hs : a.Shifts b l m) : StructsBelow b env n := by
  intro sd k hmem hl
  unfold Links at hl
  rw [hs.links] at hl
  exact h sd k hmem hl

end

namespace Resolved

variable {p : Program} {a : Annotations} {env : List Decl} {n base : Nat}

theorem holds (h : Resolved p a) {g : Bool} {ds : List VarDecl} (hv : VarsBound env a g n ds)
    (hbelow : StructsBelow a env base) : a.Holds base n ds := by
  induction ds generalizing n with
  | nil => trivial
  | cons d ds ih =>
    obtain ⟨⟨hl, s, hs, -, -, hty⟩, hrest⟩ := hv
    refine ⟨⟨h.linked? hl, s, hs, fun k hk => ?_⟩, ih hrest⟩
    cases ht : d.type with
    | scalar sc =>
      rw [ht] at hty
      simp [Symbol.definition?, hty.2.1] at hk
    | struct i =>
      rw [ht] at hty
      obtain ⟨sd, k', hmem, -, hsd, -, hkind, -⟩ := hty
      obtain rfl : k' = k := by simpa [Symbol.definition?, hkind] using hk
      exact hbelow sd k' hmem hsd

/-- Parameters are made of no struct. -/
theorem holds_params (h : Resolved p a) {g : Bool} {ps : List Param}
    (hv : VarsBound env a g n (ps.map Param.decl)) : a.Holds 0 n (ps.map Param.decl) := by
  induction ps generalizing n with
  | nil => trivial
  | cons q ps ih =>
    obtain ⟨⟨hl, s, hs, -, -, -, hkind, -⟩, hrest⟩ := hv
    refine ⟨⟨h.linked? hl, s, hs, fun k hk => ?_⟩, ih hrest⟩
    simp [Symbol.definition?, hkind] at hk

end Resolved

namespace Layout

variable {p : Program} {a : Annotations} {env : List Decl} {n : Nat}

theorem structDecl_yields (h : Resolved p a) {d : StructDecl}
    (hb : DeclBound a env n (.struct d)) (hbelow : StructsBelow a env n) :
    Yields (structDecl d) a fun _ b => a.Shifts b n (n + (Decl.struct d).symbolCount) ∧
      b.Placed n (.struct d) := by
  obtain ⟨hfields, hlink, s, -, hs, -⟩ := hb
  refine .bind (fields_yields d.fields (h.holds hfields hbelow) (Nat.le_refl n)) ?_
  rintro _ b ⟨hsh, hfit, hoffset, rfl⟩
  have hlinked : b.linked? d.name.id = some (n + d.fields.length) :=
    (hsh.linked? _).trans (h.linked? hlink)
  refine .bind (resolved_yields hlinked) ?_
  rintro _ _ ⟨rfl, rfl⟩
  obtain ⟨s', hs', -⟩ := hsh.moved hs
  refine (update_yields hs').mono ?_
  rintro _ _ rfl
  have hsh' := shifts_update (a := b) (k := n + d.fields.length) (n := n + d.fields.length)
    (m := n + d.fields.length + 1)
    (f := fun x => { x with size := 0 + b.total n d.fields.length }) (Nat.le_refl _)
    (Nat.lt_succ_self _) fun s => .of_kind rfl rfl rfl rfl
  refine ⟨hsh.append hsh' (by omega) (Nat.le_succ _), hfit.shift hsh' (by omega) (Nat.le_refl _),
    fun i hi => ?_, ?_⟩
  · rw [fieldOffsetAt_congr (hsh'.kept (.inl (by omega))), hoffset i hi,
      total_congr fun j _ hj => hsh'.kept (.inl (by omega)), Nat.zero_add]
  · have htotal : (b.update (n + d.fields.length)
        fun x => { x with size := 0 + b.total n d.fields.length }).total n d.fields.length =
        b.total n d.fields.length := total_congr fun j _ hj => hsh'.kept (.inl (by omega))
    rw [htotal, sizeAt, symbol?_update, if_pos rfl, hs']
    simp

theorem fnDecl_yields (h : Resolved p a) {d : FnDecl} (hb : DeclBound a env n (.fn d))
    (hbelow : StructsBelow a env n) (hfn : ∃ s, a.symbol? n = some s ∧ d.Described s) :
    Yields (fnDecl d) a fun _ b => a.Shifts b n (n + (Decl.fn d).symbolCount) ∧
      b.Placed n (.fn d) := by
  obtain ⟨hlink, hparams, hbody⟩ := hb
  have hstructs : StructsBelow a (extend (.fn d :: env) (d.params.map Param.decl)) n := by
    intro sd k hmem hl
    have hmem := mem_extend_struct.1 hmem
    exact hbelow sd k (by simpa using hmem) hl
  have hlocals := h.holds hbody.vars hstructs
  refine .bind (params_yields d.params (h.holds_params hparams)) ?_
  rintro _ b ⟨hsh, hfitP, hoffP⟩
  refine .bind (body_yields d.body (hlocals.shift hsh) (by omega)) ?_
  rintro _ c ⟨hsh', hfitL, hoffL, rfl⟩
  have hall : a.Shifts c (n + 1) (n + 1 + d.params.length + d.body.allDecls.length) :=
    hsh.append hsh' (by omega) (by omega)
  refine .bind (resolved_yields ((hall.linked? _).trans (h.linked? hlink))) ?_
  rintro _ _ ⟨rfl, rfl⟩
  obtain ⟨s, hs, -, info, hinfo, -⟩ := hfn
  obtain ⟨s', hs', hm⟩ := hall.moved hs
  obtain ⟨info', hinfo', -⟩ := hm.info hinfo
  have hspace : ∀ start : Int, (start - (start - c.total (n + 1 + d.params.length)
      d.body.allDecls.length)).toNat = c.total (n + 1 + d.params.length) d.body.allDecls.length :=
    fun start => by omega
  refine (update_yields hs').mono ?_
  rintro _ _ rfl
  rw [hspace]
  generalize hfinal : c.update n _ = final
  have hsh'' : c.Shifts final n (n + 1) := hfinal ▸ shifts_update (Nat.le_refl n)
    (Nat.lt_succ_self n) (moved_setSpaces _ _)
  have htotal : ∀ i, final.total (n + 1 + d.params.length) i =
      c.total (n + 1 + d.params.length) i := fun i =>
    total_congr fun j hj _ => hsh''.kept (.inr (by omega))
  -- the symbol of the function itself is told last, and the others do not depend on it
  have hrange : n + (Decl.fn d).symbolCount =
      n + 1 + d.params.length + d.body.allDecls.length := by
    simp only [Decl.symbolCount]
    omega
  refine ⟨?_, ?_, fun i hi => ?_, ?_, fun i hi => ?_, ?_⟩
  · rw [hrange]
    exact (hall.mono (Nat.le_succ n) (Nat.le_refl _)).trans
      (hsh''.mono (Nat.le_refl n) (by omega))
  · intro i hi
    exact ((hfitP i hi).shift hsh' (Nat.zero_le _) (.inl (by omega))).shift hsh''
      (Nat.zero_le _) (.inr (by omega))
  · rw [offsetAt_congr (hsh''.kept (.inr (by omega))), offsetAt_congr (hsh'.kept (.inl (by omega))),
      hoffP i hi, Int.zero_sub]
  · intro i hi
    exact (hfitL i hi).shift hsh'' (Nat.le_refl n) (.inr (by omega))
  · rw [offsetAt_congr (hsh''.kept (.inr (by omega))), hoffL i hi, htotal]
    omega
  · refine ⟨setSpaces (wordSize * d.params.length) _ s', _, ?_, fnInfo?_setSpaces hinfo', rfl,
      (htotal _).symm⟩
    rw [← hfinal, symbol?_update, if_pos rfl, hs']
    rfl

theorem decl_yields (h : Resolved p a) {d : Decl} (hb : DeclBound a env n d)
    (hbelow : StructsBelow a env n)
    (hfn : ∀ f, d = .fn f → ∃ s, a.symbol? n = some s ∧ f.Described s) :
    Yields (decl d) a fun _ b => a.Shifts b n (n + d.symbolCount) ∧ b.Placed n d := by
  cases d with
  | var d =>
    have hholds : a.Holds n n [d] := 
      h.holds (show VarsBound env a true n [d] from ⟨hb, trivial⟩) hbelow
    obtain ⟨⟨hl, s, hs, hd⟩, -⟩ := hholds
    refine .bind (sized_yields hl hs (Nat.le_refl n) hd) ?_
    rintro _ b ⟨-, hsh, hfit⟩
    exact .pure ⟨hsh, hfit⟩
  | struct d => exact structDecl_yields h hb hbelow
  | fn d => exact fnDecl_yields h hb hbelow (hfn d rfl)

theorem decls_yields (ds : List Decl) {a : Annotations} {env : List Decl} {n : Nat}
    (h : Resolved p a) (hb : Lasting (DeclsBound · env n ds) a) (hfns : FnsDescribed a n ds)
    (hbelow : StructsBelow a env n) :
    Yields (decls ds) a fun _ b => a.Shifts b n (n + symbolTotal ds) ∧ b.AllPlaced n ds := by
  induction ds generalizing a env n with
  | nil => exact .pure ⟨.refl a _ _, trivial⟩
  | cons d ds ih =>
    refine .bind (decl_yields h hb.here.1 hbelow hfns.1) ?_
    rintro _ b ⟨hsh, hplaced⟩
    have hb' : Lasting (DeclsBound · (d :: env) (n + d.symbolCount) ds) b := fun c hc =>
      (hb c (hsh.keeps.trans hc)).2
    have hbelow' : StructsBelow b (d :: env) (n + d.symbolCount) :=
      (StructsBelow.cons h hb.here.1 hbelow).shift hsh
    refine (ih (h.shift hsh) hb' (hfns.2.shift hsh) hbelow').mono ?_
    rintro _ c ⟨hsh', hall⟩
    have htotal : n + symbolTotal (d :: ds) = n + d.symbolCount + symbolTotal ds := by
      simp only [symbolTotal, List.map_cons, List.sum_cons]
      omega
    refine ⟨?_, hplaced.shift hsh' (Nat.le_refl _), hall⟩
    rw [htotal]
    exact hsh.append hsh' (by omega) (by omega)

end Layout

/-- **Layout gives every variable its place.** -/
theorem placeSymbols_placed {p : Program} {a : Annotations} (h : Resolved p a) :
    ∃ b, placeSymbols p a = .ok b ∧ a.Shifts b 0 a.symbols.size ∧ b.AllPlaced 0 p.decls := by
  obtain ⟨_, b, hrun, hsh, hall⟩ :=
    Layout.decls_yields p.decls h h.lasting h.described fun _ _ hmem => nomatch hmem
  refine ⟨b, by rw [placeSymbols, hrun], ?_, hall⟩
  rwa [h.size, ← Nat.zero_add (symbolTotal p.decls)]

end FlatC
