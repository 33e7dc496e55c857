import FlatC.Proofs.Simulation.Frame

/-!
# What names stand for at run time

A running program looks names up among the declarations in scope, and the code uses what
binding has linked them to. Where names are bound, both find the same: the code of a place uses
the location of the word that the place denotes (`Compiled.location_of_place?`), and a
function that is called is one of the program, with the declarations that its body was bound
with (`Compiled.fn_of_function?`).
-/

namespace FlatC

open Binding Annotations Layout

/-- What is in scope somewhere in a function of the program. -/
structure Env.Fits (e : Env) (p : Program) (f : FnDecl) : Prop where
  inner : ∀ d ∈ e.inner, d ∈ f.variables
  outer : e.outer <:+ p.decls.reverse

namespace Env

variable {e : Env} {p : Program} {f : FnDecl} {b : Annotations}

theorem decls_extend (ds : List VarDecl) : (e.extend ds).decls = Binding.extend e.decls ds := by
  simp [decls, extend, Binding.extend]

theorem find_decls (x : String) :
    find e.decls x = ((e.inner.find? (·.name.name == x)).map Decl.var).or (find e.outer x) := by
  simp only [find, decls, List.find?_append, List.find?_map]
  rfl

theorem Fits.mem_outer (he : e.Fits p f) {d : Decl} (hd : d ∈ e.outer) : d ∈ p.decls :=
  List.mem_reverse.1 (he.outer.subset hd)

theorem Fits.extend (he : e.Fits p f) {ds : List VarDecl} (h : ∀ d ∈ ds, d ∈ f.variables) :
    (e.extend ds).Fits p f := by
  refine ⟨fun d hd => ?_, he.outer⟩
  obtain hd | hd := List.mem_append.1 hd
  · exact h d (List.mem_reverse.1 hd)
  · exact he.inner d hd

end Env

/-- What is known of a place whose names are bound, the last of them to `k`. -/
structure Target.Reached (t : Target) (p : Program) (f : FnDecl) (b : Annotations) (q : Place)
    (k : SymbolId) : Prop where
  names : Names b q t.path.root t.path.fields
  root : if t.isOuter then Decl.var t.path.root ∈ p.decls else t.path.root ∈ f.variables
  leads : ∀ ys, Leads p.decls t.type ys →
    Leads p.decls t.path.root.type (t.path.fields ++ ys)
  last : ∃ g y, Housed p b g y k ∧ y.type = t.type

section

variable {p : Program} {b : Annotations} {f : FnDecl} {e : Env}

theorem Housed.links {g : Bool} {d : VarDecl} {k : Nat} (h : Housed p b g d k) :
    b.Links d.name.id k := by
  obtain ⟨_, ⟨hl, -⟩, -⟩ := h.bound
  exact hl

/-- The variable in front of a place. -/
theorem reached_of_named? (hr : Ready p b) (hf : Decl.fn f ∈ p.decls) (he : e.Fits p f)
    {node : Node} {name : Ident} {k : SymbolId} {t : Target} (hq : Uses e.decls name k b)
    (ht : e.named? name.name = some t) : t.Reached p f b (.var node name) k := by
  obtain ⟨d, hfind, hd, hl⟩ := hq
  rw [Env.find_decls] at hfind
  have hnames : ∀ x : VarDecl, d = .var x → x.name.name = name.name →
      Names b (.var node name) x [] := by
    rintro x rfl hx
    exact .var hx.symm ((hr.resolved.linked? hl).trans (hr.resolved.linked? hd).symm)
  unfold Env.named? at ht
  cases hin : e.inner.find? (·.name.name == name.name) with
  | some x =>
    simp only [hin, Option.some.injEq, Option.map_some, Option.some_or] at ht hfind
    subst ht hfind
    have hmem := he.inner x (List.mem_of_find?_eq_some hin)
    obtain ⟨k', hk'⟩ := hr.housed_variable hf hmem
    obtain rfl := hr.resolved.unique hk'.links hd
    exact ⟨hnames x rfl (by simpa using List.find?_some hin), hmem, fun ys hy => hy, _, x, hk', rfl⟩
  | none =>
    simp only [hin, Option.map_none, Option.none_or] at ht hfind
    rw [hfind] at ht
    cases d with
    | var x =>
      obtain rfl := Option.some.inj ht
      obtain ⟨hmem, hkey⟩ := mem_of_find hfind
      obtain ⟨k', hk'⟩ := hr.outer (he.mem_outer hmem)
      obtain rfl := hr.resolved.unique hk'.links hd
      exact ⟨hnames x rfl hkey, he.mem_outer hmem, fun ys hy => hy, _, x, hk', rfl⟩
    | struct => cases ht
    | fn => cases ht

/-- The symbols of the fields of a struct, as binding finds them. -/
theorem housed_field (hr : Ready p b) {g : Bool} {y : VarDecl} {k : SymbolId}
    (hy : Housed p b g y k) {struct : Ident} (htype : y.type = .struct struct) {sd : StructDecl}
    (hsd : Decl.struct sd ∈ p.decls) (hname : sd.name.name = struct.name) {s s' : Symbol}
    {d i : SymbolId} {fields : Scope} (hs : b.symbol? k = some s) (hd : s.definition? = some d)
    (hs' : b.symbol? d = some s') (hf : s'.fields? = some fields) {name : String}
    (hi : fields.lookup name = some i) {x : VarDecl}
    (hx : sd.fields.find? (·.name.name == name) = some x) : Housed p b false x i := by
  obtain ⟨env, ⟨-, s1, hs1, -, -, hty⟩, henv⟩ := hy.bound
  obtain rfl := Option.some.inj (hs.symm.trans hs1)
  rw [htype] at hty
  obtain ⟨sd', d', hmem, hname', hl, -, hkind, -⟩ := hty
  obtain rfl : d' = d := by simpa [Symbol.definition?, hkind] using hd
  obtain rfl := Decl.struct.inj (hr.resolved.decl_unique hsd (henv sd' hmem)
    (congrArg structKey (hname.trans hname'.symm)))
  obtain ⟨n, rfl, hat⟩ := Housed.of_struct hr hsd hl
  obtain ⟨env', n', ⟨-, hl', s2, fields', hs2, hf', hentries⟩, -⟩ := hr.decl hsd
  have hn : n = n' := by
    have := hr.resolved.unique hl hl'
    exact Nat.add_right_cancel this
  subst hn
  obtain rfl := Option.some.inj (hs'.symm.trans hs2)
  obtain rfl := Option.some.inj (hf.symm.trans hf')
  have hlookup : (fieldEntries n sd.fields).lookup name = some i := by
    rw [← hentries, ← Scope.lookup_eq_entries]
    exact hi
  obtain ⟨j, hj, rfl⟩ := lookup_fieldEntries hlookup hx
  exact hat.fields hj

theorem reached_of_place? (hr : Ready p b) (hf : Decl.fn f ∈ p.decls) (he : e.Fits p f)
    {q : Place} {k : SymbolId} (hq : PlaceBound e.decls b q k) {t : Target}
    (ht : e.place? q = some t) : t.Reached p f b q k := by
  induction hq generalizing t with
  | var h => exact reached_of_named? hr hf he h ht
  | @field node base name k d i s s' fields hb hs hd hs' hfields hlookup hl ih =>
    simp only [Env.place?, Option.bind_eq_bind, Option.bind_eq_some_iff] at ht
    obtain ⟨u, hu, ht⟩ := ht
    obtain ⟨hnames, hroot, hleads, g, y, hy, htype⟩ := ih hu
    split at ht
    next struct hstruct =>
      obtain ⟨x, hx, ht⟩ := Option.bind_eq_some_iff.1 ht
      obtain rfl := Option.some.inj ht
      unfold Env.field? at hx
      split at hx
      next sd hsd =>
        obtain ⟨hmem, hkey⟩ := mem_of_find hsd
        have hname : sd.name.name = struct.name := by
          simpa [Decl.key, structKey] using hkey
        have hfield := housed_field hr hy (htype.trans hstruct) (he.mem_outer hmem) hname hs hd
          hs' hfields hlookup hx
        refine ⟨.field hnames ?_, hroot, fun ys hys => ?_, false, x, hfield, rfl⟩
        · rw [hr.resolved.linked? hl, hr.resolved.linked? hfield.links]
        · have := hleads (x :: ys) (by
            rw [hstruct]
            exact .field (he.mem_outer hmem) hname (List.mem_of_find?_eq_some hx) hys)
          rwa [List.append_assoc]
      next => cases hx
    next => cases ht

/-- The code of a place uses the location of the word that it denotes. -/
theorem location_of_place? (hr : Ready p b) (hf : Decl.fn f ∈ p.decls) (he : e.Fits p f)
    {q : Place} {k : SymbolId} (hq : PlaceBound e.decls b q k) {t : Target}
    (ht : e.place? q = some t) {s : Scalar} (hs : t.type = .scalar s) :
    t.Denotes p f ∧ ∀ n, (Code.location b q).run n = .ok (slot b t.path.root t.path.fields, n) := by
  obtain ⟨hnames, hroot, hleads, -⟩ := reached_of_place? hr hf he hq ht
  have hx := hleads [] (hs ▸ .word s)
  rw [List.append_nil] at hx
  obtain ⟨n, hn⟩ := hr.fnAt hf
  refine ⟨⟨hroot, hx⟩, location_of_names hn hr ?_ hx hnames⟩
  split at hroot
  · exact .outer hroot
  · exact .of_variable hroot

/-! ## Functions -/

theorem declBound_of_suffix {ds env : List Decl} {n : Nat} (h : DeclsBound b env n ds) {d : Decl}
    {rest : List Decl} (hs : d :: rest <:+ ds.reverse ++ env) :
    d :: rest <:+ env ∨ ∃ n, DeclBound b rest n d := by
  induction ds generalizing env n with
  | nil => exact .inl hs
  | cons x ds ih =>
    rw [List.reverse_cons, List.append_assoc] at hs
    obtain hs | hs := ih h.2 hs
    · obtain heq | hs := List.suffix_cons_iff.1 hs
      · obtain ⟨rfl, rfl⟩ := List.cons.inj heq
        exact .inr ⟨n, h.1⟩
      · exact .inl hs
    · exact .inr hs

/-- A function that is called is bound with the declarations up to it. -/
theorem fn_of_function? (hr : Ready p b) (houter : e.outer <:+ p.decls.reverse) {x : String}
    {g : FnDecl} {outer : List Decl} (h : e.function? x = some (g, outer)) :
    g.name.name = x ∧ outer <:+ p.decls.reverse ∧
      ∃ rest n, outer = .fn g :: rest ∧ DeclBound b rest n (.fn g) := by
  unfold Env.function? at h
  split at h
  next => cases h
  next =>
    split at h
    next g' ds hdrop =>
      obtain ⟨rfl, rfl⟩ := Prod.mk.inj (Option.some.inj h)
      have hs : Decl.fn g' :: ds <:+ p.decls.reverse := by
        rw [← hdrop]
        exact (List.dropWhile_suffix _).trans houter
      have hkey : ¬ (Decl.fn g').key ≠ x := by
        have hne : e.outer.dropWhile (·.key != x) ≠ [] := by simp [hdrop]
        simpa [hdrop] using List.head_dropWhile_not _ hne
      refine ⟨not_not.1 hkey, hs, ds, ?_⟩
      rw [← List.append_nil p.decls.reverse] at hs
      obtain h | ⟨n, hn⟩ := declBound_of_suffix hr.resolved.bound hs
      · simp at h
      · exact ⟨n, rfl, hn⟩
    next => cases h

end

end FlatC
