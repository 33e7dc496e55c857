import FlatC.Proofs.Layout.Disjoint
import FlatC.Proofs.Scoping.Links

/-!
# Structs are flat

The words of a struct are the words of its fields, one field behind the other, and so on down to
the scalars: `Program.leaves` lists the paths to them depth first. Layout knows nothing of
paths. It gives every field one offset, which all variables of the struct share, and it looks up
the size of a struct at its definition. `placeSymbols_flattened` says that the two agree: a
variable has a word for each of its paths, and the path number `k` ends `k` words behind its start.
-/

namespace FlatC

open Binding Annotations Layout

/-- No stage before layout reports an error in the program `p`, and they leave the notes `a`. -/
inductive Faultless (p : Program) (a : Annotations) : Prop where
  | intro {a₀ : Annotations} (spelled : Grammar.Every Token.Wf p.tokens)
      (distinct : p.ids.Nodup) (bind : bindNames p .empty = .ok (a₀, []))
      (check : checkTypes p a₀ = (.ok (), a, [])) : Faultless p a

theorem Faultless.resolved {p : Program} {a : Annotations} (h : Faultless p a) :
    Resolved p a ∧ ∀ f, Decl.fn f ∈ p.decls → f.body.Written a := by
  obtain ⟨hw, hn, hbind, hcheck⟩ := h
  obtain ⟨t, s, hrun, -, -, hgood⟩ := bind_of_wf hw hn
  rw [bindNames, hrun] at hbind
  obtain ⟨rfl, hr⟩ := Prod.mk.inj (Except.ok.inj hbind)
  obtain ⟨a', rs, hcheck', -, hresolved, hwritten⟩ := checkTypes_written (hgood hr) hn
  obtain ⟨-, h⟩ := Prod.mk.inj (hcheck'.symm.trans hcheck)
  obtain ⟨rfl, -⟩ := Prod.mk.inj h
  exact ⟨hresolved, hwritten⟩

/-- Layout gets ready what is checked, whatever sizes and offsets the notes hold. -/
theorem Faultless.place {p : Program} {a a' : Annotations} (h : Faultless p a)
    (hs : a.Shifts a' 0 a.symbols.size) : ∃ b, placeSymbols p a' = .ok b ∧ Ready p b := by
  obtain ⟨hr, hw⟩ := h.resolved
  have hr' := hr.shift hs
  obtain ⟨b, hplace, hsh, hall⟩ := placeSymbols_placed hr'
  exact ⟨b, hplace, hr'.shift hsh, hall,
    fun f hf => ((hw f hf).congr hs.typeOf?).congr hsh.typeOf?⟩

theorem Analyzed.faultless {source : String} {p : Program} {b : Annotations}
    (h : Analyzed source p b) : ∃ a, Faultless p a ∧ placeSymbols p a = .ok b := by
  obtain ⟨hlex, hparse, hbind, hcheck, hplace⟩ := h
  obtain ⟨hw, hn⟩ := wf_of_parse hlex hparse
  exact ⟨_, ⟨hw, hn, hbind, hcheck⟩, hplace⟩

/-! ## The leaves of a type -/

/-- The paths from something of a type down to its words, depth first and in the order of the
fields. The declarations are those in scope, the last one first: the fields of a struct are made of
what stands before it. -/
def TypeSpec.leaves : List Decl → TypeSpec → List (List VarDecl)
  | _, .scalar _ => [[]]
  | [], .struct _ => []
  | .struct sd :: ds, .struct name =>
    if sd.name.name = name.name then sd.fields.flatMap fun x => (leaves ds x.type).map (x :: ·)
    else leaves ds (.struct name)
  | _ :: ds, .struct name => leaves ds (.struct name)

/-- The leaves of a type in a program. -/
def Program.leaves (p : Program) (t : TypeSpec) : List (List VarDecl) := t.leaves p.decls.reverse

@[simp] theorem Program.leaves_scalar (p : Program) (s : Scalar) :
    p.leaves (.scalar s) = [[]] := by
  unfold Program.leaves TypeSpec.leaves
  rfl

namespace TypeSpec

variable {new old : List Decl}

/-- Declarations under other names do not matter. -/
theorem leaves_append {name : Ident}
    (h : ∀ sd, Decl.struct sd ∈ new → sd.name.name ≠ name.name) :
    (TypeSpec.struct name).leaves (new ++ old) = (TypeSpec.struct name).leaves old := by
  induction new with
  | nil => rfl
  | cons d new ih =>
    have ih := ih fun sd hsd => h sd (.tail _ hsd)
    cases d with
    | struct sd => rw [List.cons_append, leaves, if_neg (h sd (.head _)), ih]
    | var d | fn f => rw [List.cons_append, leaves, ih]; exact nofun

/-- The leaves of a type lead down to words. -/
theorem leads_of_mem_leaves {ds : List Decl} (hds : ∀ d ∈ ds, d ∈ old) {t : TypeSpec}
    {xs : List VarDecl} (h : xs ∈ t.leaves ds) : Leads old t xs := by
  induction ds generalizing t xs with
  | nil =>
    cases t with
    | scalar s => simp only [leaves, List.mem_singleton] at h; exact h ▸ .word s
    | struct name => simp [leaves] at h
  | cons d ds ih =>
    have ih := fun {t xs} => @ih (fun d hd => hds d (.tail _ hd)) t xs
    cases t with
    | scalar s => simp only [leaves, List.mem_singleton] at h; exact h ▸ .word s
    | struct name =>
      cases d with
      | var d | fn f => exact ih h
      | struct sd =>
        unfold leaves at h
        split at h
        next hname =>
          obtain ⟨x, hx, hxs⟩ := List.mem_flatMap.1 h
          obtain ⟨ys, hys, rfl⟩ := List.mem_map.1 hxs
          exact .field (hds _ (.head _)) hname hx (ih hys)
        next => exact ih h

end TypeSpec

section

variable {p : Program} {b : Annotations}

/-- A struct has another name than the declarations before it. -/
theorem Resolved.apart (h : Resolved p b) {before after : List Decl} {d : Decl}
    (hp : p.decls = before ++ d :: after) {sd : StructDecl} (hsd : Decl.struct sd ∈ after)
    {name : String} (hd : d.key = structKey name) : sd.name.name ≠ name := by
  rintro rfl
  have hnodup := h.nodup
  rw [hp, List.map_append, List.map_cons] at hnodup
  obtain ⟨-, hcons, -⟩ := List.nodup_append.1 hnodup
  exact (List.nodup_cons.1 hcons).1 (hd ▸ List.mem_map_of_mem (f := Decl.key) hsd)

/-- The leaves of a struct are those of its fields, one field behind the other. -/
theorem Resolved.leaves_struct (h : Resolved p b) {sd : StructDecl}
    (hsd : Decl.struct sd ∈ p.decls) {name : Ident} (hname : sd.name.name = name.name) :
    p.leaves (.struct name) =
      sd.fields.flatMap fun x => (p.leaves x.type).map (x :: ·) := by
  obtain ⟨before, after, hp⟩ := List.append_of_mem hsd
  have hrev : p.decls.reverse = after.reverse ++ (.struct sd :: before.reverse) := by simp [hp]
  have hbound := h.bound
  rw [hp] at hbound
  obtain ⟨hfields, -⟩ := hbound.split
  have hinner : ∀ x ∈ sd.fields, x.type.leaves before.reverse = p.leaves x.type := by
    intro x hx
    obtain ⟨i, hi⟩ := List.getElem?_of_mem hx
    obtain ⟨-, s, -, -, -, hty⟩ := hfields.get hi
    cases ht : x.type with
    | scalar sc => simp [TypeSpec.leaves]
    | struct i =>
      rw [ht] at hty
      obtain ⟨sd', -, hmem, hname', -⟩ := hty
      have hmem' : Decl.struct sd' ∈ before := by simpa using hmem
      have hsplit : after.reverse ++ (.struct sd :: before.reverse) =
          (after.reverse ++ [.struct sd]) ++ before.reverse := by simp
      rw [Program.leaves, hrev, hsplit, TypeSpec.leaves_append]
      intro sd'' hsd''
      obtain ⟨cs, ds, rfl⟩ := List.append_of_mem hmem'
      have hlater : Decl.struct sd'' ∈ ds ++ .struct sd :: after := by
        simp only [List.mem_append, List.mem_reverse, List.mem_singleton] at hsd''
        simp only [List.mem_append, List.mem_cons]
        exact .inr hsd''.symm
      have hp' : p.decls = cs ++ .struct sd' :: (ds ++ .struct sd :: after) := by simp [hp]
      exact h.apart hp' hlater (congrArg structKey hname')
  rw [Program.leaves, hrev, TypeSpec.leaves_append, TypeSpec.leaves, if_pos hname]
  · rw [List.flatMap_def, List.flatMap_def, List.map_congr_left fun x hx => by rw [hinner x hx]]
  · exact fun sd' hsd' => h.apart hp (List.mem_reverse.1 hsd') (congrArg structKey hname)

/-- The leaves of a type are all paths down to its words. -/
theorem Resolved.mem_leaves (h : Resolved p b) {t : TypeSpec} {xs : List VarDecl} :
    xs ∈ p.leaves t ↔ Leads p.decls t xs := by
  refine ⟨TypeSpec.leads_of_mem_leaves fun d hd => List.mem_reverse.1 hd, fun hx => ?_⟩
  induction hx with
  | word s => simp
  | field hsd hname hx _ ih =>
    rw [h.leaves_struct hsd hname]
    exact List.mem_flatMap.2 ⟨_, hx, List.mem_map_of_mem ih⟩

end

/-! ## Bytes and offsets -/

/-- The bytes of the variables `ds`, which have the symbols from `n` on. -/
theorem Annotations.total_eq_sum {b : Annotations} {n : Nat} {ds : List VarDecl}
    {g : VarDecl → Nat} (h : ∀ i x, ds[i]? = some x → b.sizeAt (n + i) = g x) {i : Nat}
    (hi : i ≤ ds.length) : b.total n i = ((ds.take i).map g).sum := by
  induction i with
  | zero => rfl
  | succ i ih =>
    have hx : ds[i]? = some ds[i] := List.getElem?_eq_getElem hi
    rw [total, ih (Nat.le_of_lt hi), h i _ hx, List.take_add_one, hx, List.map_append,
      List.sum_append]
    simp only [Option.toList_some, List.map_singleton, List.sum_singleton]

/-- Something in a concatenation is in one of the lists, behind all of those before it. -/
theorem exists_of_getElem?_flatMap {α β : Type} {F : α → List β} {l : List α} {j : Nat} {y : β}
    (h : (l.flatMap F)[j]? = some y) : ∃ i x k, l[i]? = some x ∧ (F x)[k]? = some y ∧
      j = ((l.take i).map fun x => (F x).length).sum + k := by
  induction l generalizing j with
  | nil => simp at h
  | cons x l ih =>
    rw [List.flatMap_cons] at h
    obtain hj | hj := Nat.lt_or_ge j (F x).length
    · rw [List.getElem?_append_left hj] at h
      exact ⟨0, x, j, rfl, h, by simp⟩
    · rw [List.getElem?_append_right hj] at h
      obtain ⟨i, z, k, hz, hy, hk⟩ := ih h
      refine ⟨i + 1, z, k, by simpa using hz, hy, ?_⟩
      simp only [List.take_succ_cons, List.map_cons, List.sum_cons]
      omega

section

variable {p : Program} {b : Annotations} {g : Bool} {d : VarDecl} {k : Nat} (hr : Ready p b)

include hr

/-- A variable has a word for each leaf of its type. The structs that it is made of have smaller
numbers. -/
theorem Housed.sizeAt_eq (h : Housed p b g d k) :
    b.sizeAt k = wordSize * (p.leaves d.type).length := by
  induction k using Nat.strongRecOn generalizing g d with
  | ind k ih =>
    obtain ⟨_, ht, hsize⟩ | ⟨_, sd, n, ht, hsd, hname, hlt, hsize, hat⟩ := h.cases hr
    · simp [ht, hsize]
    · have hfields : ∀ i x, sd.fields[i]? = some x →
          b.sizeAt (n + i) = wordSize * (p.leaves x.type).length := fun i x hi =>
        ih (n + i) (by have := (List.getElem?_eq_some_iff.1 hi).1; omega) (hat.fields hi)
      rw [hsize, total_eq_sum hfields (Nat.le_refl _), List.take_length, List.sum_map_mul_left, ht,
        hr.resolved.leaves_struct hsd hname, List.length_flatMap]
      simp

/-- The leaf number `j` lies `j` words behind the start of the variable. -/
theorem Housed.depth_eq (h : Housed p b g d k) {j : Nat} {xs : List VarDecl}
    (hj : (p.leaves d.type)[j]? = some xs) : depth b xs = wordSize * j := by
  induction k using Nat.strongRecOn generalizing g d j xs with
  | ind k ih =>
    obtain ⟨_, ht, -⟩ | ⟨_, sd, n, ht, hsd, hname, hlt, -, hat⟩ := h.cases hr
    · rw [ht, Program.leaves_scalar, List.getElem?_singleton] at hj
      split at hj
      next hj0 => cases hj; simp [depth, hj0]
      next => cases hj
    · rw [ht, hr.resolved.leaves_struct hsd hname] at hj
      obtain ⟨i, x, l, hi, hl, rfl⟩ := exists_of_getElem?_flatMap hj
      rw [List.getElem?_map] at hl
      obtain ⟨ys, hys, rfl⟩ := Option.map_eq_some_iff.1 hl
      have hlti := (List.getElem?_eq_some_iff.1 hi).1
      have htail : depth b ys = wordSize * l := ih (n + i) (by omega) (hat.fields hi) hys
      have htotal := total_eq_sum (fun i x hi => (hat.fields hi).sizeAt_eq hr) (Nat.le_of_lt hlti)
      rw [depth_cons, htail, hat.fieldDepth_eq hr hi, htotal, List.sum_map_mul_left, Nat.mul_add]
      simp

/-- No two leaves of a variable are the same path. -/
theorem Housed.nodup_leaves (h : Housed p b g d k) : (p.leaves d.type).Nodup := by
  refine List.nodup_iff_getElem?_ne_getElem?.2 fun i j hij hj heq => ?_
  have hi : i < (p.leaves d.type).length := Nat.lt_trans hij hj
  rw [List.getElem?_eq_getElem hi] at heq
  have hdepth := (h.depth_eq hr (List.getElem?_eq_getElem hi)).symm.trans (h.depth_eq hr heq.symm)
  simp only [wordSize] at hdepth
  omega

end

/-! ## Programs -/

/-- All variables and fields that a program declares. -/
def Program.variables (p : Program) : List VarDecl := p.decls.flatMap Decl.variables

theorem Ready.housed {p : Program} {b : Annotations} (hr : Ready p b) {d : VarDecl}
    (hd : d ∈ p.variables) : ∃ g k, Housed p b g d k := by
  obtain ⟨x, hx, hd⟩ := List.mem_flatMap.1 hd
  cases x with
  | var d' =>
    obtain rfl : d = d' := List.mem_singleton.1 hd
    exact ⟨_, hr.outer hx⟩
  | struct sd =>
    obtain ⟨env, n, ⟨-, hl, -⟩, -⟩ := hr.decl hx
    obtain ⟨m, -, hat⟩ := Housed.of_struct hr hx hl
    obtain ⟨i, hi⟩ := List.getElem?_of_mem hd
    exact ⟨_, _, hat.fields hi⟩
  | fn f => exact ⟨_, hr.housed_variable hx hd⟩

/-- The numbers in the notes are those of the flat structs of the program. -/
structure Annotations.Flat (b : Annotations) (p : Program) : Prop where
  order : ∀ sd name, Decl.struct sd ∈ p.decls → sd.name.name = name.name →
    p.leaves (.struct name) = sd.fields.flatMap fun x => (p.leaves x.type).map (x :: ·)
  paths : ∀ t xs, xs ∈ p.leaves t ↔ Leads p.decls t xs
  once : ∀ d ∈ p.variables, (p.leaves d.type).Nodup
  definition : ∀ sd, Decl.struct sd ∈ p.decls → ∃ s, b.symbolOf? sd.name.id = some s ∧
    s.size = wordSize * (p.leaves (.struct sd.name)).length
  bytes : ∀ d ∈ p.variables, ∃ s, b.symbolOf? d.name.id = some s ∧
    s.size = wordSize * (p.leaves d.type).length
  offsets : ∀ d ∈ p.variables, ∀ k xs, (p.leaves d.type)[k]? = some xs → ∃ os : List Int,
    xs.map (fun x => (b.symbolOf? x.name.id).map Symbol.fieldOffset) = os.map some ∧
      os.sum = -((wordSize * k : Nat) : Int)
  inner : ∀ f, Decl.fn f ∈ p.decls → ∀ d ∈ f.variables, ∃ s, b.symbolOf? d.name.id = some s ∧
    ∀ k xs q m, (p.leaves d.type)[k]? = some xs → Names b q d xs →
      (Code.location b q).run m = .ok (.frame (s.offset - (wordSize * k : Nat)), m)
  outer : ∀ d, Decl.var d ∈ p.decls →
    ∀ k xs q m, (p.leaves d.type)[k]? = some xs → Names b q d xs →
      (Code.location b q).run m = .ok (.global (Label.global d.name.name) (wordSize * k), m)

section

variable {p : Program} {b : Annotations} {g : Bool} {d : VarDecl} {k j m : Nat}
  {xs : List VarDecl} {q : Place} (hr : Ready p b)

include hr

theorem Housed.bytes (h : Housed p b g d k) : ∃ s, b.symbolOf? d.name.id = some s ∧
    s.size = wordSize * (p.leaves d.type).length := by
  obtain ⟨s, hs, hs', -⟩ := h.symbolOf? hr.resolved
  exact ⟨s, hs, by rw [← h.sizeAt_eq hr, sizeAt, hs']; rfl⟩

theorem Housed.offsets (h : Housed p b g d k) (hj : (p.leaves d.type)[j]? = some xs) :
    ∃ os : List Int, xs.map (fun x => (b.symbolOf? x.name.id).map Symbol.fieldOffset) =
      os.map some ∧ os.sum = -((wordSize * j : Nat) : Int) := by
  have hx := hr.resolved.mem_leaves.1 (List.mem_of_getElem? hj)
  refine ⟨xs.map fun x => -(fieldDepth b x : Int), ?_, ?_⟩
  · rw [List.map_map]
    refine List.map_congr_left fun x hmem => ?_
    obtain ⟨s, hs, hoffset⟩ := h.fieldOffset hr hx x hmem
    simp [hs, hoffset]
  · have hsum : ∀ ys : List VarDecl,
        (ys.map fun x => -(fieldDepth b x : Int)).sum = -(depth b ys : Int) := by
      intro ys
      induction ys with
      | nil => rfl
      | cons y ys ih =>
        rw [List.map_cons, List.sum_cons, ih, depth_cons]
        omega
    rw [hsum, h.depth_eq hr hj]

/-- A place is where its leaf is. -/
theorem Housed.location (h : Housed p b g d k) (hj : (p.leaves d.type)[j]? = some xs)
    (hq : Names b q d xs) : (Code.location b q).run m = .ok (slot b d xs, m) := by
  obtain ⟨s, hs, -⟩ := h.symbolOf? hr.resolved
  exact hq.location hs (h.fieldOffset hr (hr.resolved.mem_leaves.1 (List.mem_of_getElem? hj))) m

/-- What later stages rely on says that structs are flat. -/
theorem Ready.flat : b.Flat p where
  order _ _ hsd hname := hr.resolved.leaves_struct hsd hname
  paths _ _ := hr.resolved.mem_leaves
  once d hd := by
    obtain ⟨g, k, h⟩ := hr.housed hd
    exact h.nodup_leaves hr
  definition sd hsd := by
    obtain ⟨env, n, ⟨-, hl, s, -, hs, -⟩, -⟩ := hr.decl hsd
    obtain ⟨m, hm, hat⟩ := Housed.of_struct hr hsd hl
    refine ⟨s, (hr.resolved.symbolOf? hl).trans hs, ?_⟩
    have hsize : s.size = b.total m sd.fields.length := by
      rw [← hat.placed.size, ← hm, sizeAt, hs]
      rfl
    rw [hsize, total_eq_sum (fun i x hi => (hat.fields hi).sizeAt_eq hr) (Nat.le_refl _),
      List.take_length, List.sum_map_mul_left, hr.resolved.leaves_struct hsd rfl,
      List.length_flatMap]
    simp
  bytes d hd := by
    obtain ⟨g, k, h⟩ := hr.housed hd
    exact h.bytes hr
  offsets d hd j xs hj := by
    obtain ⟨g, k, h⟩ := hr.housed hd
    exact h.offsets hr hj
  inner f hf d hd := by
    obtain ⟨k, h⟩ := hr.housed_variable hf hd
    obtain ⟨s, hs, -, hg⟩ := h.symbolOf? hr.resolved
    refine ⟨s, hs, fun j xs q m hj hq => ?_⟩
    rw [h.location hr hj hq, slot, hs, ← h.depth_eq hr hj]
    simp [hg]
  outer d hd j xs q m hj hq := by
    obtain ⟨k, h⟩ := hr.outer hd
    rw [h.location hr hj hq, h.slot_eq hr.resolved, h.depth_eq hr hj]

end

/-- **The layout of a struct is its depth-first flattening.** -/
theorem placeSymbols_flat {p : Program} {a : Annotations} (h : Faultless p a) :
    ∃ b, placeSymbols p a = .ok b ∧ b.Flat p := by
  obtain ⟨b, hplace, hb⟩ := h.place (.refl a _ _)
  exact ⟨b, hplace, hb.flat⟩

/-- A struct that holds two of another one and a number, and a function with a variable of that
type. -/
def nestedInFunction (p : Program) : Bool :=
  match p.decls with
  | [.struct ⟨inner, [⟨.scalar .int, _, _⟩, ⟨.scalar .bool, _, _⟩], _⟩,
      .struct ⟨outer, [⟨.struct i, _, _⟩, ⟨.scalar .int, _, _⟩, ⟨.struct j, _, _⟩], _⟩, .fn f] =>
    match f.body.allDecls with
    | [⟨.struct k, _, _⟩] => inner.name != outer.name && i.name == inner.name &&
      j.name == inner.name && k.name == outer.name
    | _ => false
  | _ => false

/-- The last of five words, two structs down. -/
theorem placeSymbols_flat_nested :
    ∃ p a b f d x y s, Faultless p a ∧ placeSymbols p a = .ok b ∧ Decl.fn f ∈ p.decls ∧
      d ∈ f.variables ∧ Leads p.decls d.type [x, y] ∧ b.symbolOf? d.name.id = some s ∧
      s.size = 20 ∧ ∀ q m, Names b q d [x, y] →
        (Code.location b q).run m = .ok (.frame (s.offset - 16), m) := by
  obtain ⟨p, b, _, _, han, -, -, htest, -⟩ := exists_of_compiled
    "struct A { int x; bool y; }; struct B { struct A a; int z; struct A c; }; void main() { struct B v; }"
    nestedInFunction (fun _ => true) (by decide +kernel) (by decide +kernel)
  obtain ⟨a, hfaultless, hplace⟩ := han.faultless
  obtain ⟨b', hplace', hflat⟩ := placeSymbols_flat hfaultless
  obtain rfl := Except.ok.inj (hplace'.symm.trans hplace)
  unfold nestedInFunction at htest
  split at htest
  next inner _ _ y spany _ outer i _ _ _ _ j c spanc _ f hdecls =>
    split at htest
    next k v spanv hlocals =>
      simp only [Bool.and_eq_true, bne_iff_ne, ne_eq, beq_iff_eq] at htest
      obtain ⟨⟨⟨hne, hi⟩, hj⟩, hk⟩ := htest
      have hf : Decl.fn f ∈ p.decls := by simp [hdecls]
      have hd : ⟨.struct k, v, spanv⟩ ∈ f.variables := by simp [FnDecl.variables, hlocals]
      have hleaves : (p.leaves (.struct k)).length = 5 ∧
          (p.leaves (.struct k))[4]? = some [⟨.struct j, c, spanc⟩, ⟨.scalar .bool, y, spany⟩] := by
        simp [Program.leaves, hdecls, TypeSpec.leaves, hi, hj, hk]
      obtain ⟨s, hs, hsize⟩ := hflat.bytes _ (List.mem_flatMap.2 ⟨_, hf, hd⟩)
      obtain ⟨s', hs', hloc⟩ := hflat.inner f hf _ hd
      obtain rfl := Option.some.inj (hs.symm.trans hs')
      refine ⟨p, a, b', f, _, _, _, s, hfaultless, hplace', hf, hd,
        (hflat.paths _ _).1 (List.mem_of_getElem? hleaves.2), hs, ?_,
        fun q m hq => hloc 4 _ q m hleaves.2 hq⟩
      rw [hsize, hleaves.1]
      rfl
    next => cases htest
  next => cases htest

end FlatC
