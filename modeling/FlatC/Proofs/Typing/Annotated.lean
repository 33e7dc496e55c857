import FlatC.Proofs.Binding.Steps
import FlatC.Proofs.Scoping.Links
import FlatC.Proofs.Typing.Records

/-!
# What is noted of a program, and what is not

Binding links names and nothing else, and if it reports nothing it has linked all of them
(`Resolved.linked_iff`). Checking gives types to expressions and to nothing else, and to all of
them, whatever it reports. So later stages find a link under the id of every name and a type under
the id of every expression.
-/

namespace FlatC

/-- The occurrences `ids` are linked. -/
def Annotations.LinksAll (a : Annotations) (ids : List NodeId) : Prop :=
  ∀ i ∈ ids, ∃ k, a.Links i k

namespace Annotations.LinksAll

variable {a : Annotations} {ids ids' : List NodeId} {i : NodeId}

theorem nil : a.LinksAll [] := fun _ h => nomatch h

theorem cons {k : SymbolId} (h : a.Links i k) (h' : a.LinksAll ids) : a.LinksAll (i :: ids) :=
  List.forall_mem_cons.2 ⟨⟨k, h⟩, h'⟩

theorem append (h : a.LinksAll ids) (h' : a.LinksAll ids') : a.LinksAll (ids ++ ids') :=
  List.forall_mem_append.2 ⟨h, h'⟩

theorem one {k : SymbolId} (h : a.Links i k) : a.LinksAll [i] := .cons h .nil

end Annotations.LinksAll

open Annotations Binding Grammar

/-! ## Bound trees are linked -/

section

variable {a : Annotations} {env : List Decl}

theorem Binding.PlaceBound.linksAll {p : Place} {k : SymbolId} (h : PlaceBound env a p k) :
    a.LinksAll p.nameIds := by
  induction h with
  | var h =>
    obtain ⟨d, -, -, hl⟩ := h
    exact .one hl
  | field _ _ _ _ _ _ hl ih => exact ih.append (.one hl)

mutual

theorem Binding.ExprBound.linksAll : ∀ {e : Expr}, ExprBound env a e → a.LinksAll e.nameIds
  | .int .., _ | .str .., _ | .bool .., _ => .nil
  | .place _, ⟨_, h⟩ => h.linksAll
  | .assign .., ⟨⟨_, ht⟩, hv⟩ => ht.linksAll.append (ExprBound.linksAll hv)
  | .call .., ⟨⟨_, _, _, _, hl⟩, hargs⟩ => .cons hl (ExprsBound.linksAll hargs)
  | .unary _ _ operand, h => ExprBound.linksAll (e := operand) h
  | .binary .., ⟨hl, hr⟩ => (ExprBound.linksAll hl).append (ExprBound.linksAll hr)

theorem Binding.ExprsBound.linksAll : ∀ {es : List Expr}, ExprsBound env a es →
    a.LinksAll (Expr.allNameIds es)
  | [], _ => .nil
  | _ :: _, ⟨h, hs⟩ => (ExprBound.linksAll h).append (ExprsBound.linksAll hs)

end

theorem Binding.VarBound.linksAll {g : Bool} {d : VarDecl} {k : SymbolId}
    (h : VarBound env a g d k) : a.LinksAll d.ids := by
  obtain ⟨hl, s, -, -, -, htype⟩ := h
  have htypeIds : a.LinksAll d.type.ids := by
    cases hd : d.type with
    | scalar => exact .nil
    | struct i =>
      rw [hd] at htype
      obtain ⟨_, _, -, -, -, hi, -⟩ := htype
      exact .one hi
  exact htypeIds.append (.one hl)

theorem Binding.VarsBound.linksAll {g : Bool} {ds : List VarDecl} {n : Nat}
    (h : VarsBound env a g n ds) : a.LinksAll (ds.flatMap VarDecl.ids) := by
  induction ds generalizing n with
  | nil => exact .nil
  | cons d ds ih => exact h.1.linksAll.append (ih h.2)

mutual

theorem Binding.StmtBound.linksAll : ∀ {s : Stmt} {env : List Decl} {n : Nat},
    StmtBound a env n s → a.LinksAll s.nameIds
  | .assign _ node target value, _, _, h => ExprBound.linksAll (e := .assign node target value) h
  | .increment .., _, _, ⟨_, h⟩ | .decrement .., _, _, ⟨_, h⟩ | .read .., _, _, ⟨_, h⟩ => h.linksAll
  | .write _ value, _, _, h => ExprBound.linksAll (e := value) h
  | .ifThen .., _, _, ⟨hc, hb⟩ | .whileLoop .., _, _, ⟨hc, hb⟩ =>
    hc.linksAll.append (BodyBound.linksAll hb)
  | .ifElse .., _, _, ⟨hc, hb, hb'⟩ =>
    (hc.linksAll.append (BodyBound.linksAll hb)).append (BodyBound.linksAll hb')
  | .call _ node callee args, _, _, h => ExprBound.linksAll (e := .call node callee args) h
  | .ret _ none, _, _, _ => .nil
  | .ret _ (some value), _, _, h => ExprBound.linksAll (e := value) h

theorem Binding.BodyBound.linksAll : ∀ {b : Body} {env : List Decl} {n : Nat},
    BodyBound a env n b → a.LinksAll b.nameIds
  | .block _ _, _, _, ⟨hd, hs⟩ => hd.linksAll.append (StmtsBound.linksAll hs)

theorem Binding.StmtsBound.linksAll : ∀ {ss : List Stmt} {env : List Decl} {n : Nat},
    StmtsBound a env n ss → a.LinksAll (Stmt.allNameIds ss)
  | [], _, _, _ => .nil
  | _ :: _, _, _, ⟨h, hs⟩ => (StmtBound.linksAll h).append (StmtsBound.linksAll hs)

end

theorem Binding.DeclBound.linksAll {d : Decl} {n : Nat} (h : DeclBound a env n d) :
    a.LinksAll d.nameIds := by
  cases d with
  | var d => exact VarBound.linksAll h
  | struct d =>
    obtain ⟨hfields, hl, -⟩ := h
    exact .cons hl hfields.linksAll
  | fn d =>
    obtain ⟨hl, hparams, hbody⟩ := h
    have hparamIds := hparams.linksAll
    rw [ids_params] at hparamIds
    exact .cons hl (hparamIds.append hbody.linksAll)

theorem Binding.DeclsBound.linksAll {ds : List Decl} {n : Nat} (h : DeclsBound a env n ds) :
    a.LinksAll (ds.flatMap Decl.nameIds) := by
  induction ds generalizing env n with
  | nil => exact .nil
  | cons d ds ih => exact h.1.linksAll.append (ih h.2)

end

/-! ## Programs -/

section

variable {p : Program} {a : Annotations}

/-- Binding links names only. -/
theorem mem_nameIds_of_links {rs : List Report} (hw : Every Token.Wf p.tokens)
    (hrun : bindNames p .empty = .ok (a, rs)) {i : NodeId} {k : SymbolId} (hl : a.Links i k) :
    i ∈ p.nameIds := by
  obtain ⟨t, s, hs, -, -, hcount, -⟩ := program_yields p hw
  rw [bindNames, hs] at hrun
  obtain ⟨rfl, -⟩ := Prod.mk.inj (Except.ok.inj hrun)
  have hlinked : 0 < s.notes.linkCount i :=
    List.count_pos_iff.2 (List.mem_map_of_mem (f := Prod.fst) hl)
  exact List.count_pos_iff.1 (Nat.lt_of_lt_of_le hlinked (hcount i))

/-- **Every name is linked and every expression has a type, and nothing else.** Of what was read
from a text and bound without a report, the ids with a link are just those of the identifier
occurrences. Checking it succeeds, and then, whether it found type errors or not, the ids with a
type are just those of the expressions. -/
theorem annotated_exactly {source : String} {ts : Lexer.Tokens} {s : Session}
    (hlex : tokenize source = .ok ts) (hparse : parse ts.lexemes = .ok p)
    (hbind : (s.bind p .empty).1 = .ok (true, a)) (s' : Session) :
    (∀ i, (a.linked? i).isSome = true ↔ i ∈ p.nameIds) ∧
    ∃ ok b, (s'.check p a).1 = .ok (ok, b) ∧
      ∀ i, (b.typeOf? i).isSome = true ↔ i ∈ p.exprIds := by
  obtain ⟨hr, -⟩ := resolved_of_bind hlex hparse hbind
  obtain ⟨rs, hrun, -⟩ := Session.bindNames_of_bind hbind
  obtain ⟨-, ⟨⟩, hresult, htypes, -⟩ := Typing.program_gives hr
  refine ⟨fun i => ?_, (Typing.program a p).reports.isEmpty,
    a.withTypes (Typing.program a p).types, ?_, fun i => ?_⟩
  · constructor
    · intro hlinked
      obtain ⟨k, hk⟩ := Option.isSome_iff_exists.1 hlinked
      exact mem_nameIds_of_links (wf_of_parse hlex hparse).1 hrun (NodeMap.mem_of_get? hk)
    · intro hi
      obtain ⟨k, hl⟩ := hr.bound.linksAll i hi
      exact Option.isSome_iff_exists.2 ⟨k, hr.linked? hl⟩
  · simp [Session.check, checkTypes, hresult, Except.map]
  · rw [Annotations.typeOf?, NodeMap.isSome_get?_iff, Annotations.withTypes_eq,
      bindNames_types hrun]
    simp [NodeMap.empty, htypes]

/-- A call with an argument too many, a call of an `int`, and fields. -/
theorem annotated_with_errors :
    ∃ ts p a b,
      tokenize "struct P \x7b int x; \x7d; int f(int n) \x7b return n; \x7d void main() \x7b struct P p; int n; p.x = f(p.x, n) + n(p.x); \x7d" =
        .ok ts ∧
      parse ts.lexemes = .ok p ∧ ((Session.new "").bind p .empty).1 = .ok (true, a) ∧
      ((Session.new "").check p a).1 = .ok (false, b) ∧
      (∀ i, (a.linked? i).isSome = true ↔ i ∈ p.nameIds) ∧
      ∀ i, (b.typeOf? i).isSome = true ↔ i ∈ p.exprIds := by
  obtain ⟨ts, p, a, hlex, hparse, hbind, htest⟩ := exists_of_bound
    "struct P \x7b int x; \x7d; int f(int n) \x7b return n; \x7d void main() \x7b struct P p; int n; p.x = f(p.x, n) + n(p.x); \x7d"
    (fun p a => ((Session.new "").check p a).1.toOption.any fun r => !r.1) (by decide +kernel)
  obtain ⟨hlinks, ok, b, hcheck, htypes⟩ := annotated_exactly hlex hparse hbind (Session.new "")
  rw [hcheck] at htest
  obtain rfl : ok = false := by simpa [Except.toOption] using htest
  exact ⟨ts, p, a, b, hlex, hparse, hbind, hcheck, hlinks, htypes⟩

end

end FlatC
