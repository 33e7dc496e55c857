import FlatC.Proofs.Scoping.Links
import FlatC.Proofs.Syntax.Occurrences
import FlatC.Proofs.Syntax.Sound

/-!
# The order of node ids

`Program.parts` are the expressions of a program at any depth. An expression gets its id when its
last token has been read, so its id is the last of those in it (`Expr.ids_concat`), and the ids in it
stand among those of the program in the order in which they were handed out (`Program.among`). The
ids of the program are the numbers below its node count, in their order, so they rise in every
expression (`parse_ids_dense`).
-/

namespace FlatC

mutual

/-- The expressions of a statement, each behind those in it. -/
def Stmt.parts : Stmt → List Expr
  | .assign _ node target value => (Expr.assign node target value).parts
  | .increment _ target | .decrement _ target | .read _ target => (Expr.place target).parts
  | .write _ value => value.parts
  | .ifThen _ cond body | .whileLoop _ cond body => cond.parts ++ body.parts
  | .ifElse _ cond thenBody elseBody => cond.parts ++ thenBody.parts ++ elseBody.parts
  | .call _ node callee args => (Expr.call node callee args).parts
  | .ret _ none => []
  | .ret _ (some value) => value.parts

def Body.parts : Body → List Expr
  | .block _ ss => Stmt.allParts ss

def Stmt.allParts : List Stmt → List Expr
  | [] => []
  | s :: ss => s.parts ++ Stmt.allParts ss

end

def Decl.parts : Decl → List Expr
  | .var _ | .struct _ => []
  | .fn d => d.body.parts

/-- The expressions of a program. -/
def Program.parts (p : Program) : List Expr := p.decls.flatMap Decl.parts

/-! ## The ids of the parts -/

theorem Place.map_id_parts (q : Place) : (q.parts.map Expr.place).map Expr.id = q.exprIds := by
  induction q with
  | var => rfl
  | field node base name ih =>
    rw [Place.parts, List.map_append, List.map_append, ih]
    rfl

mutual

theorem Expr.map_id_parts : ∀ e : Expr, e.parts.map Expr.id = e.exprIds
  | .int .. | .str .. | .bool .. => rfl
  | .place q => q.map_id_parts
  | .assign node target value => by
    rw [Expr.parts, List.map_append, List.map_append, target.map_id_parts, value.map_id_parts]
    rfl
  | .call _ _ args => by
    rw [Expr.parts, List.map_append, Expr.map_id_allParts args]
    rfl
  | .unary _ _ operand => by
    rw [Expr.parts, List.map_append, operand.map_id_parts]
    rfl
  | .binary _ _ left right => by
    rw [Expr.parts, List.map_append, List.map_append, left.map_id_parts, right.map_id_parts]
    rfl

theorem Expr.map_id_allParts : ∀ es : List Expr,
    (Expr.allParts es).map Expr.id = Expr.allExprIds es
  | [] => rfl
  | e :: es => by
    rw [Expr.allParts, List.map_append, e.map_id_parts, Expr.map_id_allParts es]
    rfl

end

mutual

theorem Stmt.map_id_parts : ∀ s : Stmt, s.parts.map Expr.id = s.exprIds
  | .assign _ node target value => (Expr.assign node target value).map_id_parts
  | .increment _ target | .decrement _ target | .read _ target => target.map_id_parts
  | .write _ value => value.map_id_parts
  | .ifThen _ cond body | .whileLoop _ cond body => by
    rw [Stmt.parts, List.map_append, cond.map_id_parts, body.map_id_parts]
    rfl
  | .ifElse _ cond thenBody elseBody => by
    rw [Stmt.parts, List.map_append, List.map_append, cond.map_id_parts, thenBody.map_id_parts,
      elseBody.map_id_parts]
    rfl
  | .call _ node callee args => (Expr.call node callee args).map_id_parts
  | .ret _ none => rfl
  | .ret _ (some value) => value.map_id_parts

theorem Body.map_id_parts : ∀ b : Body, b.parts.map Expr.id = b.exprIds
  | .block _ ss => Stmt.map_id_allParts ss

theorem Stmt.map_id_allParts : ∀ ss : List Stmt,
    (Stmt.allParts ss).map Expr.id = Stmt.allExprIds ss
  | [] => rfl
  | s :: ss => by
    rw [Stmt.allParts, List.map_append, s.map_id_parts, Stmt.map_id_allParts ss]
    rfl

end

theorem Decl.map_id_parts (d : Decl) : d.parts.map Expr.id = d.exprIds := by
  cases d with
  | var | struct => rfl
  | fn d => exact d.body.map_id_parts

theorem Program.map_id_parts (p : Program) : p.parts.map Expr.id = p.exprIds := by
  rw [Program.parts, List.map_flatMap, Program.exprIds]
  exact List.flatMap_congr fun d _ => d.map_id_parts

/-! ## The ids in a part -/

/-- The ids in each of the expressions stand among `is`, in their order. -/
def Among (es : List Expr) (is : List NodeId) : Prop := ∀ e ∈ es, e.ids.Sublist is

namespace Among

variable {es es' : List Expr} {is is' : List NodeId}

theorem nil (is : List NodeId) : Among [] is := fun _ h => (by cases h)

theorem mono (h : Among es is) (hs : is.Sublist is') : Among es is' :=
  fun e he => (h e he).trans hs

theorem append (h : Among es is) (h' : Among es' is') : Among (es ++ es') (is ++ is') :=
  List.forall_mem_append.2 ⟨h.mono (List.sublist_append_left _ _),
    h'.mono (List.sublist_append_right _ _)⟩

/-- The expression around those before. -/
theorem around (h : Among es is) {e : Expr} (he : e.ids = is ++ [e.id]) :
    Among (es ++ [e]) (is ++ [e.id]) := by
  refine List.forall_mem_append.2 ⟨h.mono (List.sublist_append_left _ _), ?_⟩
  rw [List.forall_mem_singleton, he]

end Among

theorem Place.among (q : Place) : Among (q.parts.map .place) q.ids := by
  induction q with
  | var node name => exact Among.around (.nil [name.id]) (e := .place (.var node name)) rfl
  | field node base name ih =>
    have hbase := ih.mono (List.sublist_append_left base.ids [name.id])
    have hown : base.ids ++ [name.id, node.id] = base.ids ++ [name.id] ++ [node.id] := by simp
    have hids : Place.ids (.field node base name) = base.ids ++ [name.id] ++ [node.id] := hown
    rw [Place.parts, List.map_append, hids]
    exact hbase.around (e := .place (.field node base name)) hown

mutual

theorem Expr.among : ∀ e : Expr, Among e.parts e.ids
  | .int node value => Among.around (.nil []) (e := .int node value) rfl
  | .str node text => Among.around (.nil []) (e := .str node text) rfl
  | .bool node value => Among.around (.nil []) (e := .bool node value) rfl
  | .place q => q.among
  | .assign node target value =>
    (target.among.append value.among).around (e := .assign node target value) rfl
  | .call node callee args =>
    ((Expr.among_all args).mono (List.sublist_cons_self callee.id _)).around
      (e := .call node callee args) rfl
  | .unary node op operand => operand.among.around (e := .unary node op operand) rfl
  | .binary node op left right =>
    (left.among.append right.among).around (e := .binary node op left right) rfl

theorem Expr.among_all : ∀ es : List Expr, Among (Expr.allParts es) (Expr.allIds es)
  | [] => .nil _
  | e :: es => e.among.append (Expr.among_all es)

end

mutual

theorem Stmt.among : ∀ s : Stmt, Among s.parts s.ids
  | .assign _ node target value => (Expr.assign node target value).among
  | .increment _ target | .decrement _ target | .read _ target => target.among
  | .write _ value => value.among
  | .ifThen _ cond body | .whileLoop _ cond body => cond.among.append body.among
  | .ifElse _ cond thenBody elseBody => (cond.among.append thenBody.among).append elseBody.among
  | .call _ node callee args => (Expr.call node callee args).among
  | .ret _ none => .nil _
  | .ret _ (some value) => value.among

theorem Body.among : ∀ b : Body, Among b.parts b.ids
  | .block _ ss => (Stmt.among_all ss).mono (List.sublist_append_right _ _)

theorem Stmt.among_all : ∀ ss : List Stmt, Among (Stmt.allParts ss) (Stmt.allIds ss)
  | [] => .nil _
  | s :: ss => s.among.append (Stmt.among_all ss)

end

theorem Decl.among (d : Decl) : Among d.parts d.ids := by
  cases d with
  | var | struct => exact .nil _
  | fn d => exact d.body.among.mono ((List.sublist_append_right _ _).cons _)

theorem Program.among (p : Program) : Among p.parts p.ids := by
  intro e he
  obtain ⟨d, hd, he⟩ := List.mem_flatMap.1 he
  exact (d.among e he).trans (List.sublist_flatten_of_mem (List.mem_map_of_mem hd))

/-- An expression has the last id of those in it. -/
theorem Expr.ids_concat (e : Expr) : ∃ is, e.ids = is ++ [e.id] := by
  cases e with
  | int | str | bool => exact ⟨[], rfl⟩
  | place q =>
    cases q with
    | var node name => exact ⟨[name.id], rfl⟩
    | field node base name =>
      exact ⟨base.ids ++ [name.id], by simp [ids, Place.ids, id, Expr.node, Place.node]⟩
  | assign _ target value => exact ⟨target.ids ++ value.ids, rfl⟩
  | call _ callee args => exact ⟨callee.id :: Expr.allIds args, rfl⟩
  | unary _ _ operand => exact ⟨operand.ids, rfl⟩
  | binary _ _ left right => exact ⟨left.ids ++ right.ids, rfl⟩

theorem Expr.mem_parts (e : Expr) : e ∈ e.parts := by
  cases e with
  | int | str | bool => exact List.mem_singleton_self _
  | place q => cases q <;> simp [Expr.parts, Place.parts]
  | assign | call | unary | binary => exact List.mem_append_right _ (List.mem_singleton_self _)

/-- Where ids rise, that of an expression is above those of the names and expressions in it. -/
theorem Expr.id_above {e : Expr} (h : e.ids.Pairwise (· < ·)) :
    (∀ i ∈ e.nameIds, i < e.id) ∧ ∀ x ∈ e.parts, x ≠ e → x.id < e.id := by
  have hle : ∀ i ∈ e.ids, i ≤ e.id := by
    obtain ⟨is, his⟩ := e.ids_concat
    rw [his, List.pairwise_append] at h
    intro i hi
    rw [his] at hi
    rcases List.mem_append.1 hi with hi | hi
    · exact Nat.le_of_lt (h.2.2 i hi _ (List.mem_singleton_self _))
    · exact Nat.le_of_eq (List.mem_singleton.1 hi)
  have hnodup : e.ids.Nodup := h.imp Nat.ne_of_lt
  have hcount : ∀ i, e.nameIds.count i + e.exprIds.count i ≤ 1 := fun i => by
    rw [← e.count_ids i]
    exact List.nodup_iff_count_le_one.1 hnodup i
  have hmem : ∀ i, 0 < e.nameIds.count i + e.exprIds.count i → i ≤ e.id := fun i hi =>
    hle i (List.count_pos_iff.1 (by rwa [e.count_ids i]))
  have hown : 0 < e.exprIds.count e.id := by
    rw [List.count_pos_iff, ← e.map_id_parts]
    exact List.mem_map_of_mem e.mem_parts
  constructor
  · intro i hi
    have hname := List.count_pos_iff.2 hi
    refine Nat.lt_of_le_of_ne (hmem i (by omega)) ?_
    rintro rfl
    have := hcount e.id
    omega
  · intro x hx hne
    have hpart : 0 < e.exprIds.count x.id := by
      rw [List.count_pos_iff, ← e.map_id_parts]
      exact List.mem_map_of_mem hx
    refine Nat.lt_of_le_of_ne (hmem x.id (by omega)) fun hid => hne ?_
    have hparts : (e.parts.map Expr.id).Nodup := by
      rw [e.map_id_parts, List.nodup_iff_count_le_one]
      exact fun i => Nat.le_trans (Nat.le_add_left _ _) (hcount i)
    exact List.inj_on_of_nodup_map hparts hx e.mem_parts hid

/-- **Node ids are numbered without gaps.** The names and the expressions of a program that was read
have different ids, which are the numbers below its node count. The id of an expression is above
those of all names and expressions in it. -/
theorem parse_ids_dense {ls : List Lexeme} {p : Program} (h : parse ls = .ok p) :
    (p.nameIds ++ p.parts.map Expr.id).Nodup ∧
    (∀ i, i ∈ p.nameIds ++ p.parts.map Expr.id ↔ i < p.nodeCount) ∧
    ∀ e ∈ p.parts, (∀ i ∈ e.nameIds, i < e.id) ∧ ∀ x ∈ e.parts, x ≠ e → x.id < e.id := by
  have hids := (parse_sound h).ids
  have hperm : (p.nameIds ++ p.parts.map Expr.id).Perm (List.range p.nodeCount) := by
    rw [List.perm_iff_count]
    intro i
    rw [p.map_id_parts, List.count_append, ← p.count_ids, hids]
  refine ⟨hperm.nodup_iff.2 List.nodup_range, fun i => ?_, fun e he => Expr.id_above ?_⟩
  · rw [hperm.mem_iff, List.mem_range]
  · have hsub := p.among e he
    rw [hids] at hsub
    exact List.pairwise_lt_range.sublist hsub

/-- Fields, calls and assignments in one another. -/
theorem parse_ids_dense_nested : ∃ ts p,
    tokenize "struct P \x7b int x; \x7d; int f(int a) \x7b struct P p; p.x = a = -f(p.x + 1); \x7d" =
      .ok ts ∧
    parse ts.lexemes = .ok p ∧ (p.nameIds ++ p.parts.map Expr.id).Nodup ∧
    (∀ i, i ∈ p.nameIds ++ p.parts.map Expr.id ↔ i < p.nodeCount) ∧
    ∀ e ∈ p.parts, (∀ i ∈ e.nameIds, i < e.id) ∧ ∀ x ∈ e.parts, x ≠ e → x.id < e.id := by
  obtain ⟨ts, p, hts, hp⟩ := exists_of_read
    "struct P \x7b int x; \x7d; int f(int a) \x7b struct P p; p.x = a = -f(p.x + 1); \x7d"
    (by decide +kernel)
  exact ⟨ts, p, hts, hp, parse_ids_dense hp⟩

end FlatC
