import FlatC.Proofs.Syntax.Complete
import FlatC.Proofs.Syntax.Lines

/-!
# Reading longer texts

A text that goes on behind a line break starts with the tokens that it has without what is added
(`tokenize_append`).

The first tokens of a program spell its first declarations in one way only. So the declarations of
the shorter text come first in the longer one (`parse_append`).
-/

namespace FlatC

/-- The tokens of a text come first in a text that goes on behind a line break. -/
theorem tokenize_append {source more : String} {ts us : Lexer.Tokens}
    (h : tokenize source = .ok ts) (h' : tokenize (source ++ "\n" ++ more) = .ok us) :
    ts.lexemes <+: us.lexemes := by
  have htext : (source ++ "\n" ++ more).toList = source.toList ++ '\n' :: more.toList := by simp
  unfold tokenize at h h'
  rw [htext, Lexer.tokenizeFrom_newline, h] at h'
  obtain ⟨vs, -, rfl⟩ := Lexer.followedBy_ok h'
  exact List.prefix_append _ _

/-! ## Declarations -/

open Grammar

/-- Tokens start with one declaration at most. -/
theorem Grammar.ReadsDecl.unique {n m m' : NodeId} {ts ts' us us' : List Token} {d d' : Decl}
    (h : ReadsDecl n ts d m) (h' : ReadsDecl n ts' d' m') (heq : ts ++ us = ts' ++ us') :
    ts = ts' ∧ m = m' ∧ d'.shape = d.shape := by
  let s : Cursor := ⟨none, (ts ++ us).map fun t => ⟨t, .zero⟩, n⟩
  have hs : s.tokens = ts ++ us := by simp [s, Cursor.tokens, Function.comp_def]
  obtain ⟨x, s1, hrun, hx, hrest, hid⟩ := Parser.Parses.decl h s hs rfl
  obtain ⟨x', s2, hrun', hx', hrest', hid'⟩ := Parser.Parses.decl h' s (hs.trans heq) rfl
  obtain ⟨rfl, rfl⟩ := EStateM.Result.ok.inj (hrun.symm.trans hrun')
  obtain rfl : us = us' := hrest.symm.trans hrest'
  exact ⟨List.append_cancel_right heq, hid.symm.trans hid', hx'.symm.trans hx⟩

/-- The first tokens of a list of declarations spell its first declarations. -/
theorem Grammar.ReadsMany.split {n m k : NodeId} {ts us : List Token} {ds es : List Decl}
    (h : ReadsMany ReadsDecl n ts ds m) (h' : ReadsMany ReadsDecl n (ts ++ us) es k) :
    ∃ es' rest, es = es' ++ rest ∧ es'.map Decl.shape = ds.map Decl.shape := by
  induction h generalizing es with
  | nil => exact ⟨[], es, rfl, rfl⟩
  | @cons n m' m ts ts' d ds hd hds ih =>
    rw [List.append_assoc] at h'
    generalize hall : ts ++ (ts' ++ us) = vs at h'
    cases h' with
    | nil => exact absurd (List.append_eq_nil_iff.1 hall).1 (Parser.ReadsDecl.ne_nil hd)
    | cons hd' hds' =>
      obtain ⟨rfl, rfl, hshape⟩ := hd.unique hd' hall
      obtain rfl := List.append_cancel_left hall
      obtain ⟨es', rest, rfl, hshapes⟩ := ih hds'
      exact ⟨_ :: es', rest, rfl, by rw [List.map_cons, List.map_cons, hshape, hshapes]⟩

/-- **The declarations of a text come first in a longer one**, with the same ids. -/
theorem parse_append {ls ls' : List Lexeme} {p q : Program} (hls : ls <+: ls')
    (h : parse ls = .ok p) (h' : parse ls' = .ok q) :
    ∃ ds rest, q.decls = ds ++ rest ∧ ds.map Decl.shape = p.decls.map Decl.shape := by
  obtain ⟨us, rfl⟩ := hls
  have hread := parse_sound h
  have hread' := parse_sound h'
  rw [List.map_append] at hread'
  cases hread with
  | mk hds =>
    cases hread' with
    | mk hes => exact hds.split hes

end FlatC
