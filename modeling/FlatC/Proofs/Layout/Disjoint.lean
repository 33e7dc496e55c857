import FlatC.Proofs.Layout.Slots

/-!
# No two words are kept at the same place

The variables that a function can reach are its parameters, the variables of its blocks, and those
outside all functions. Two paths from them that differ end at different locations; a location in
the frame is one of the words that the function reserves, and one in the data section lies in the
room that is made for its variable (`locations_disjoint`).
-/

namespace FlatC

open Binding Annotations Layout

/-- The variables that a function can reach, in whichever of its blocks. -/
inductive Root (p : Program) (f : FnDecl) : VarDecl → Prop where
  | param {q : Param} (h : q ∈ f.params) : Root p f q.decl
  | inner {d : VarDecl} (h : d ∈ f.body.allDecls) : Root p f d
  | outer {d : VarDecl} (h : Decl.var d ∈ p.decls) : Root p f d

/-- The place names the variable `d` and the fields `xs`: its names stand for the same symbols. -/
inductive Names (b : Annotations) : Place → VarDecl → List VarDecl → Prop where
  | var {node : Node} {i : Ident} {d : VarDecl} (hname : i.name = d.name.name)
      (hl : b.linked? i.id = b.linked? d.name.id) : Names b (.var node i) d []
  | field {node : Node} {base : Place} {i : Ident} {d x : VarDecl} {xs : List VarDecl}
      (h : Names b base d xs) (hl : b.linked? i.id = b.linked? x.name.id) :
      Names b (.field node base i) d (xs ++ [x])

theorem symbolOf?_congr {b : Annotations} {i j : NodeId} (h : b.linked? i = b.linked? j) :
    b.symbolOf? i = b.symbolOf? j := by
  rw [Annotations.symbolOf?, h]
  rfl

theorem depth_append (b : Annotations) (xs : List VarDecl) (x : VarDecl) :
    depth b (xs ++ [x]) = depth b xs + fieldDepth b x := by
  simp [depth]

/-- The location of a place is where the word of its path is kept. -/
theorem Names.location {b : Annotations} {q : Place} {d : VarDecl} {xs : List VarDecl}
    (h : Names b q d xs) {s : Symbol} (hd : b.symbolOf? d.name.id = some s)
    (hx : ∀ x ∈ xs, ∃ s, b.symbolOf? x.name.id = some s ∧
      s.fieldOffset = -(fieldDepth b x : Int)) (n : Nat) :
    (Code.location b q).run n = .ok (slot b d xs, n) := by
  induction h generalizing n with
  | var hname hl =>
    simp only [Code.location, Code.symbolOf, symbolOf?_congr hl, hd, hname]
    simp [slot, hd, depth]
    rfl
  | @field _ base i d x xs _ hl ih =>
    obtain ⟨sx, hsx, hoffset⟩ := hx x (by simp)
    have hbase := ih hd (fun y hy => hx y (List.mem_append_left _ hy)) n
    have hfield : (slot b d xs).field sx.fieldOffset = slot b d (xs ++ [x]) := by
      simp only [slot, hd, depth_append, hoffset]
      split
      · simp [Location.field]
      · simp only [Location.field, Location.frame.injEq]
        omega
    simp only [Code.location, Code.symbolOf, symbolOf?_congr hl, hsx]
    rw [← hfield]
    simp [hbase]

/-- The code of a program holds that of each declaration. -/
theorem decl_of_decls {o : Options} {b : Annotations} {ds : List Decl} {n m : Nat}
    {code : Code} (h : (Code.decls o b ds).run n = .ok (code, m)) {d : Decl} (hd : d ∈ ds) :
    ∃ c x c' k l, code = c ++ x ++ c' ∧ (Code.decl o b d).run k = .ok (x, l) := by
  induction ds generalizing n m code with
  | nil => cases hd
  | cons e ds ih =>
    simp only [Code.decls, run_bind_ok, run_pure_ok] at h
    obtain ⟨x, n1, hx, xs, n2, hxs, rfl, rfl⟩ := h
    obtain rfl | hd := List.mem_cons.1 hd
    · exact ⟨[], x, xs, _, _, rfl, hx⟩
    · obtain ⟨c, y, c', k, l, rfl, hy⟩ := ih hxs hd
      exact ⟨x ++ c, y, c', k, l, by simp, hy⟩

/-- Room is made for every variable outside all functions. -/
theorem datum_of_decls {o : Options} {b : Annotations} {ds : List Decl} {n m : Nat}
    {code : Code} (h : (Code.decls o b ds).run n = .ok (code, m)) {d : VarDecl}
    (hd : Decl.var d ∈ ds) {s : Symbol} (hs : b.symbolOf? d.name.id = some s) :
    ∃ c c', code =
      c ++ .align 2 :: Item.datum (Label.global d.name.name) (.space s.size) :: c' := by
  obtain ⟨c, x, c', k, l, rfl, hx⟩ := decl_of_decls h hd
  simp only [Code.decl, Code.globalVar, hs, run_pure_ok] at hx
  obtain ⟨rfl, -⟩ := hx
  exact ⟨c ++ [Item.data], c', by simp⟩

/-- The location is one that the program reserves: a word of the parameters or of the local
variables of `f`, or a word of a variable outside all functions. -/
def Location.Reserved (p : Program) (b : Annotations) (f : FnDecl) : Location → Prop
  | .frame u => ∃ info, (b.symbolOf? f.name.id).bind Symbol.fnInfo? = some info ∧
      (wordSize : Int) ∣ u ∧
      (-(info.formalSpace : Int) < u ∧ u ≤ 0 ∨
        -((info.formalSpace + savedSpace + info.localSpace : Nat) : Int) < u ∧
          u ≤ -((info.formalSpace + savedSpace : Nat) : Int)) ∧
      u ≠ -info.formalSpace ∧ u ≠ -info.formalSpace - wordSize
  | .global label u => ∃ size, u + wordSize ≤ size ∧
      ∀ o n code m, generate o p b n = .ok (code, m) → Item.datum label (.space size) ∈ code

section

variable {p : Program} {b : Annotations} {f : FnDecl} {n : Nat}

/-- A variable that a function can reach is in its frame, or outside. -/
theorem Root.cases (n : Nat) {d : VarDecl} (hd : Root p f d) :
    (∃ k u, Occupies b f n d k u) ∨ Decl.var d ∈ p.decls := by
  cases hd with
  | param hq =>
    obtain ⟨i, hi⟩ := List.getElem?_of_mem hq
    exact .inl ⟨_, _, .param hi⟩
  | inner hd =>
    obtain ⟨i, hi⟩ := List.getElem?_of_mem hd
    exact .inl ⟨_, _, .inner hi⟩
  | outer hd => exact .inr hd

theorem Ready.outer (hr : Ready p b) {d : VarDecl} (hd : Decl.var d ∈ p.decls) :
    ∃ k, Housed p b true d k := by
  obtain ⟨env, k, hb, hfit, -, henv⟩ := hr.decl hd
  exact ⟨k, ⟨env, hb, fun sd hsd => henv _ hsd⟩, k, Nat.le_refl k, hfit⟩

theorem Housed.slot_eq {d : VarDecl} {k : Nat} (h : Housed p b true d k) (hr : Resolved p b)
    (xs : List VarDecl) : slot b d xs = .global (Label.global d.name.name) (depth b xs) := by
  obtain ⟨s, hs, -, hg⟩ := h.symbolOf? hr
  simp [slot, hs, hg]

theorem reserved_frame (h : FnAt p b f n) (hr : Ready p b) {d : VarDecl} {k u : Nat}
    (hd : Occupies b f n d k u) {xs : List VarDecl} (hx : Leads p.decls d.type xs) :
    (slot b d xs).Reserved p b f := by
  obtain ⟨s, info, hs, hinfo, hformal, hlocal⟩ := h.placed.info
  obtain ⟨hle, hdvd⟩ := (h.housed hd).depth_le hr hx
  rw [h.slot_eq hr.resolved hd]
  refine ⟨info, by rw [hr.resolved.symbolOf? h.link, hs, Option.bind_some, hinfo], ?_, ?_⟩
  · exact Int.dvd_neg.2 (Int.natCast_dvd_natCast.2 (Nat.dvd_add (h.wordSize_dvd hr hd) hdvd))
  · have := h.range hd
    simp only [hformal, hlocal, wordSize, savedSpace] at *
    omega

theorem reserved_outer (hr : Ready p b) {d : VarDecl} (hd : Decl.var d ∈ p.decls)
    {xs : List VarDecl} (hx : Leads p.decls d.type xs) : (slot b d xs).Reserved p b f := by
  obtain ⟨k, hk⟩ := hr.outer hd
  obtain ⟨s, hs, hs', -⟩ := hk.symbolOf? hr.resolved
  rw [hk.slot_eq hr.resolved]
  refine ⟨s.size, ?_, fun o n code m hgen => ?_⟩
  · simpa [sizeAt, hs'] using (hk.depth_le hr hx).1
  · obtain ⟨c, c', rfl⟩ := datum_of_decls hgen hd hs
    simp

/-- Different paths end in different words. -/
theorem slot_inj (h : FnAt p b f n) (hr : Ready p b) {d d' : VarDecl} (hd : Root p f d)
    (hd' : Root p f d') {xs xs' : List VarDecl} (hx : Leads p.decls d.type xs)
    (hx' : Leads p.decls d'.type xs') (heq : slot b d xs = slot b d' xs') : d = d' ∧ xs = xs' := by
  obtain ⟨k, u, hd⟩ | hd := hd.cases n <;> obtain ⟨k', u', hd'⟩ | hd' := hd'.cases n
  · rw [h.slot_eq hr.resolved hd, h.slot_eq hr.resolved hd'] at heq
    have hle := ((h.housed hd).depth_le hr hx).1
    have hle' := ((h.housed hd').depth_le hr hx').1
    have hsum : u + depth b xs = u' + depth b xs' := by
      have := Location.frame.inj heq
      omega
    simp only [wordSize] at hle hle'
    obtain ⟨rfl, rfl, rfl⟩ | hlt | hlt := h.apart hd hd'
    · exact ⟨rfl, (h.housed hd).depth_inj hr hx hx' (by omega)⟩
    · omega
    · omega
  · obtain ⟨_, hk'⟩ := hr.outer hd'
    rw [h.slot_eq hr.resolved hd, hk'.slot_eq hr.resolved] at heq
    cases heq
  · obtain ⟨_, hk⟩ := hr.outer hd
    rw [h.slot_eq hr.resolved hd', hk.slot_eq hr.resolved] at heq
    cases heq
  · obtain ⟨k, hk⟩ := hr.outer hd
    obtain ⟨k', hk'⟩ := hr.outer hd'
    rw [hk.slot_eq hr.resolved, hk'.slot_eq hr.resolved] at heq
    obtain ⟨hlabel, hdepth⟩ := Location.global.inj heq
    have hname : d.name.name = d'.name.name := by simpa [Label.global] using hlabel
    obtain rfl := Decl.var.inj (hr.resolved.decl_unique hd hd' hname)
    exact ⟨rfl, hk.depth_inj hr hx hx' hdepth⟩

theorem location_of_names (h : FnAt p b f n) (hr : Ready p b) {d : VarDecl} (hd : Root p f d)
    {xs : List VarDecl} (hx : Leads p.decls d.type xs) {q : Place} (hq : Names b q d xs)
    (m : Nat) : (Code.location b q).run m = .ok (slot b d xs, m) := by
  obtain ⟨g, k, hk⟩ : ∃ g k, Housed p b g d k := by
    obtain ⟨k, u, hd⟩ | hd := hd.cases n
    · exact ⟨_, k, h.housed hd⟩
    · exact ⟨_, hr.outer hd⟩
  obtain ⟨s, hs, -⟩ := hk.symbolOf? hr.resolved
  exact hq.location hs (hk.fieldOffset hr hx) m

end

/-- **No two words are kept at the same place**, and each is kept where the program makes room
for it. -/
theorem locations_disjoint {source : String} {p : Program} {b : Annotations}
    (h : Analyzed source p b) {f : FnDecl} (hf : Decl.fn f ∈ p.decls) {d d' : VarDecl}
    (hd : Root p f d) (hd' : Root p f d') {xs xs' : List VarDecl}
    (hx : Leads p.decls d.type xs) (hx' : Leads p.decls d'.type xs') {q q' : Place}
    (hq : Names b q d xs) (hq' : Names b q' d' xs') (m m' : Nat) :
    ∃ l l', (Code.location b q).run m = .ok (l, m) ∧ (Code.location b q').run m' = .ok (l', m') ∧
      l.Reserved p b f ∧ ((d, xs) ≠ (d', xs') → l ≠ l') := by
  have hr := h.ready.1
  obtain ⟨n, hn⟩ := hr.fnAt hf
  refine ⟨_, _, location_of_names hn hr hd hx hq m, location_of_names hn hr hd' hx' hq' m', ?_,
    fun hne heq => hne ?_⟩
  · obtain ⟨k, u, hd⟩ | hd := hd.cases n
    · exact reserved_frame hn hr hd hx
    · exact reserved_outer hr hd hx
  · obtain ⟨rfl, rfl⟩ := slot_inj hn hr hd hd' hx hx' heq
    rfl

/-- A struct of a truth value and a number, and a function with one variable of that type. -/
def pairInFunction (p : Program) : Bool :=
  match p.decls with
  | [.struct ⟨name, [⟨.scalar .bool, x, _⟩, ⟨.scalar .int, y, _⟩], _⟩, .fn f] =>
    match f.body.allDecls with
    | [⟨.struct i, _, _⟩] => i.name = name.name && x ≠ y
    | _ => false
  | _ => false

/-- The two fields of a struct in a block inside a function. -/
theorem locations_disjoint_fields :
    ∃ p b f d x y,
      Analyzed "struct P \x7b bool x; int y; \x7d; void main() \x7b if (true) \x7b struct P p; \x7d \x7d" p b ∧
      Decl.fn f ∈ p.decls ∧ Root p f d ∧ Leads p.decls d.type [x] ∧ Leads p.decls d.type [y] ∧
      ∀ node, ∃ l l', (Code.location b (.field node (.var node d.name) x.name)).run 0 = .ok (l, 0) ∧
        (Code.location b (.field node (.var node d.name) y.name)).run 0 = .ok (l', 0) ∧
        l.Reserved p b f ∧ l ≠ l' := by
  obtain ⟨p, b, _, _, han, -, -, htest, -⟩ := exists_of_compiled
    "struct P \x7b bool x; int y; \x7d; void main() \x7b if (true) \x7b struct P p; \x7d \x7d"
    pairInFunction (fun _ => true) (by decide +kernel) (by decide +kernel)
  unfold pairInFunction at htest
  split at htest
  next name x spanx y spany span f hdecls =>
    split at htest
    next i d spand hlocals =>
      simp only [Bool.and_eq_true, decide_eq_true_eq] at htest
      have hsd : Decl.struct ⟨name, [⟨.scalar .bool, x, spanx⟩, ⟨.scalar .int, y, spany⟩], span⟩ ∈
          p.decls := by simp [hdecls]
      have hf : Decl.fn f ∈ p.decls := by simp [hdecls]
      have hd : Root p f ⟨.struct i, d, spand⟩ := .inner (by simp [hlocals])
      have hx : Leads p.decls (.struct i) [⟨.scalar .bool, x, spanx⟩] :=
        .field hsd htest.1.symm (by simp) (.word _)
      have hy : Leads p.decls (.struct i) [⟨.scalar .int, y, spany⟩] :=
        .field hsd htest.1.symm (by simp) (.word _)
      refine ⟨p, b, f, _, _, _, han, hf, hd, hx, hy, fun node => ?_⟩
      have hnames : ∀ z : VarDecl, Names b (.field node (.var node d) z.name)
          ⟨.struct i, d, spand⟩ ([] ++ [z]) := fun z => .field (.var rfl rfl) rfl
      obtain ⟨l, l', hl, hl', hres, hne⟩ :=
        locations_disjoint han hf hd hd hx hy (hnames _) (hnames _) 0 0
      exact ⟨l, l', hl, hl', hres, hne (by simp)⟩
    next => cases htest
  next => cases htest

end FlatC
