import FlatC.Proofs.Syntax.Complete
import FlatC.Proofs.Syntax.RoundTrip

/-!
# The productions of the grammar

The grammar once more, as a table: `production` gives a rule for every kind of phrase, made of tokens,
phrases, sequences, choices and repetitions. `Derives` is what such rules derive, and knows nothing of
trees or of a parser.

A list of tokens derives from the table exactly if it spells a tree (`spells_program_iff`), so the
parser accepts what the table derives and nothing else (`parse_exact`).
-/

namespace FlatC

namespace Grammar

/-- What a rule asks of a token. Names and literals can have any value. -/
inductive Terminal where
  | int
  | str
  | ident
  | word (w : Keyword)
  | mark (m : Mark)

inductive Terminal.Matches : Terminal → Token → Prop where
  | int {v : Int} : Matches .int (.int v)
  | str {x : String} : Matches .str (.str x)
  | ident {x : String} : Matches .ident (.ident x)
  | word {w : Keyword} : Matches (.word w) (.word w)
  | mark {m : Mark} : Matches (.mark m) (.mark m)

/-- The kinds of phrases. -/
inductive Nonterminal where
  | program
  | decl
  | varDecl
  | type
  | scalar
  | param
  | body
  | stmt
  /-- A variable and the field names behind it. -/
  | place
  /-- A place, in any number of parentheses. -/
  | target
  | expr (l : Level)
  | comparator
  | call

/-- The right side of a production. -/
inductive Rule where
  | empty
  | token (k : Terminal)
  | phrase (x : Nonterminal)
  | seq (a b : Rule)
  | alt (a b : Rule)
  | many (a : Rule)

namespace Rule

def word (w : Keyword) : Rule := token (.word w)

def mark (m : Mark) : Rule := token (.mark m)

def ident : Rule := token .ident

/-- One rule after the other. -/
def all : List Rule → Rule
  | [] => empty
  | r :: rs => seq r (all rs)

/-- One of the rules. -/
def any (r : Rule) : List Rule → Rule
  | [] => r
  | r' :: rs => alt r (any r' rs)

def optional (r : Rule) : Rule := alt empty r

/-- Phrases of one kind with `op` between them. -/
def chain (x : Nonterminal) (op : Rule) : Rule := all [phrase x, many (all [op, phrase x])]

/-- Phrases of one kind with commas between them, if there are any. -/
def commaList (x : Nonterminal) : Rule := optional (chain x (mark .comma))

end Rule

open Rule

/-- **The productions of the language.** -/
def production : Nonterminal → Rule
  | .program => many (phrase .decl)
  | .decl => any
      (all [word .struct, ident, mark .leftBrace, phrase .varDecl, many (phrase .varDecl),
        mark .rightBrace, mark .semicolon])
      [ phrase .varDecl,
        all [phrase .scalar, ident, mark .leftParen, commaList .param, mark .rightParen,
          phrase .body] ]
  | .varDecl => all [phrase .type, ident, mark .semicolon]
  | .type => any (phrase .scalar) [all [word .struct, ident]]
  | .scalar => any (word .int) [word .bool, word .void]
  | .param => all [phrase .scalar, ident]
  | .body => all [mark .leftBrace, many (phrase .varDecl), many (phrase .stmt), mark .rightBrace]
  | .stmt => any
      (all [phrase .place, mark .equal, phrase (.expr .assignment), mark .semicolon])
      [ all [phrase .place, mark .plusPlus, mark .semicolon],
        all [phrase .place, mark .minusMinus, mark .semicolon],
        all [phrase .call, mark .semicolon],
        all [word .cin, mark .shiftRight, phrase .target, mark .semicolon],
        all [word .cout, mark .shiftLeft, phrase (.expr .assignment), mark .semicolon],
        all [word .ifWord, mark .leftParen, phrase (.expr .assignment), mark .rightParen,
          phrase .body, optional (all [word .elseWord, phrase .body])],
        all [word .whileWord, mark .leftParen, phrase (.expr .assignment), mark .rightParen,
          phrase .body],
        all [word .returnWord, optional (phrase (.expr .assignment)), mark .semicolon] ]
  | .place => all [ident, many (all [mark .dot, ident])]
  | .target => any (phrase .place) [all [mark .leftParen, phrase .target, mark .rightParen]]
  | .expr .assignment => any
      (all [phrase .target, mark .equal, phrase (.expr .assignment)])
      [phrase (.expr .disjunction)]
  | .expr .disjunction => chain (.expr .conjunction) (mark .orOr)
  | .expr .conjunction => chain (.expr .comparison) (mark .andAnd)
  | .expr .comparison =>
      all [phrase (.expr .additive), optional (all [phrase .comparator, phrase (.expr .additive)])]
  | .expr .additive => chain (.expr .multiplicative) (any (mark .plus) [mark .minus])
  | .expr .multiplicative => chain (.expr .unary) (any (mark .star) [mark .slash])
  | .expr .unary => any
      (all [any (mark .minus) [mark .bang], phrase (.expr .unary)])
      [phrase (.expr .primary)]
  | .expr .primary => any
      (token .int)
      [ token .str, word .trueWord, word .falseWord, phrase .place, phrase .call,
        all [mark .leftParen, phrase (.expr .assignment), mark .rightParen] ]
  | .comparator => any
      (mark .equalEqual)
      [mark .bangEqual, mark .less, mark .greater, mark .lessEqual, mark .greaterEqual]
  | .call => all [ident, mark .leftParen, commaList (.expr .assignment), mark .rightParen]

/-- The tokens derive from the rule. -/
inductive Derives : Rule → List Token → Prop where
  | empty : Derives .empty []
  | token {k : Terminal} {t : Token} (h : k.Matches t) : Derives (.token k) [t]
  | phrase {x : Nonterminal} {ts : List Token} (h : Derives (production x) ts) :
      Derives (.phrase x) ts
  | seq {a b : Rule} {ts us : List Token} (ha : Derives a ts) (hb : Derives b us) :
      Derives (.seq a b) (ts ++ us)
  | left {a b : Rule} {ts : List Token} (h : Derives a ts) : Derives (.alt a b) ts
  | right {a b : Rule} {ts : List Token} (h : Derives b ts) : Derives (.alt a b) ts
  | none {a : Rule} : Derives (.many a) []
  | more {a : Rule} {ts us : List Token} (h : Derives a ts) (hs : Derives (.many a) us) :
      Derives (.many a) (ts ++ us)

/-- The tokens are a phrase of the kind. -/
def Spells (x : Nonterminal) (ts : List Token) : Prop := Derives (.phrase x) ts

/-! ## Rules over any meaning of phrases -/

/-- The tokens fit a rule, where `Q` says which tokens are phrases of which kind. -/
def Rule.Fits (Q : Nonterminal → List Token → Prop) : Rule → List Token → Prop
  | .empty, ts => ts = []
  | .token k, ts => ∃ t, k.Matches t ∧ ts = [t]
  | .phrase x, ts => Q x ts
  | .seq a b, ts => ∃ us vs, a.Fits Q us ∧ b.Fits Q vs ∧ ts = us ++ vs
  | .alt a b, ts => a.Fits Q ts ∨ b.Fits Q ts
  | .many a, ts => ∃ tss : List (List Token), (∀ us ∈ tss, a.Fits Q us) ∧ ts = tss.flatten

variable {Q : Nonterminal → List Token → Prop} {r : Rule} {rs : List Rule} {ts us : List Token}

/-- **Induction over derivations**: what is closed under the productions holds of all phrases. -/
theorem Derives.fits (hQ : ∀ x ts, (production x).Fits Q ts → Q x ts) (h : Derives r ts) :
    r.Fits Q ts := by
  induction h with
  | empty => exact rfl
  | token h => exact ⟨_, h, rfl⟩
  | phrase _ ih => exact hQ _ _ ih
  | seq _ _ iha ihb => exact ⟨_, _, iha, ihb, rfl⟩
  | left _ ih => exact .inl ih
  | right _ ih => exact .inr ih
  | none => exact ⟨[], by simp, rfl⟩
  | more _ _ ih ihs =>
    obtain ⟨tss, htss, rfl⟩ := ihs
    exact ⟨_ :: tss, by simpa using ⟨ih, htss⟩, rfl⟩

theorem derives_of_fits (h : r.Fits Spells ts) : Derives r ts := by
  induction r generalizing ts with
  | empty =>
    obtain rfl := h
    exact .empty
  | token k =>
    obtain ⟨t, ht, rfl⟩ := h
    exact .token ht
  | phrase x => exact h
  | seq a b iha ihb =>
    obtain ⟨us, vs, hu, hv, rfl⟩ := h
    exact .seq (iha hu) (ihb hv)
  | alt a b iha ihb => exact h.elim (fun h => .left (iha h)) fun h => .right (ihb h)
  | many a ih =>
    obtain ⟨tss, htss, rfl⟩ := h
    induction tss with
    | nil => exact .none
    | cons us tss ihs =>
      rw [List.forall_mem_cons] at htss
      exact .more (ih htss.1) (ihs htss.2)

theorem spells_of_fits {x : Nonterminal} (h : (production x).Fits Spells ts) : Spells x ts :=
  .phrase (derives_of_fits h)

/-! What each form of a rule asks. -/

@[simp] theorem fits_word {w : Keyword} : (word w).Fits Q ts ↔ ts = [.word w] := by
  refine ⟨fun h => ?_, fun h => ⟨_, .word, h⟩⟩
  obtain ⟨_, ⟨⟩, rfl⟩ := h
  rfl

@[simp] theorem fits_mark {m : Mark} : (mark m).Fits Q ts ↔ ts = [.mark m] := by
  refine ⟨fun h => ?_, fun h => ⟨_, .mark, h⟩⟩
  obtain ⟨_, ⟨⟩, rfl⟩ := h
  rfl

@[simp] theorem fits_ident : ident.Fits Q ts ↔ ∃ x, ts = [.ident x] := by
  constructor
  · rintro ⟨_, ⟨⟩, rfl⟩
    exact ⟨_, rfl⟩
  · rintro ⟨x, rfl⟩
    exact ⟨_, .ident, rfl⟩

@[simp] theorem fits_phrase {x : Nonterminal} : (phrase x).Fits Q ts ↔ Q x ts := .rfl

@[simp] theorem fits_all_nil : (all []).Fits Q ts ↔ ts = [] := .rfl

theorem fits_all_cons :
    (all (r :: rs)).Fits Q ts ↔ ∃ us vs, r.Fits Q us ∧ (all rs).Fits Q vs ∧ ts = us ++ vs := .rfl

@[simp] theorem fits_all_last : (all [r]).Fits Q ts ↔ r.Fits Q ts := by
  simp [fits_all_cons]

@[simp] theorem fits_all_mark {m : Mark} :
    (all (mark m :: rs)).Fits Q ts ↔ ∃ us, (all rs).Fits Q us ∧ ts = .mark m :: us := by
  simp [fits_all_cons]

@[simp] theorem fits_all_word {w : Keyword} :
    (all (word w :: rs)).Fits Q ts ↔ ∃ us, (all rs).Fits Q us ∧ ts = .word w :: us := by
  simp [fits_all_cons]

@[simp] theorem fits_all_ident :
    (all (ident :: rs)).Fits Q ts ↔ ∃ x us, (all rs).Fits Q us ∧ ts = .ident x :: us := by
  simp only [fits_all_cons, fits_ident]
  constructor
  · rintro ⟨_, us, ⟨x, rfl⟩, hus, rfl⟩
    exact ⟨x, us, hus, rfl⟩
  · rintro ⟨x, us, hus, rfl⟩
    exact ⟨_, us, ⟨x, rfl⟩, hus, rfl⟩

@[simp] theorem fits_all_phrase {x : Nonterminal} :
    (all (phrase x :: rs)).Fits Q ts ↔ ∃ us vs, Q x us ∧ (all rs).Fits Q vs ∧ ts = us ++ vs := .rfl

@[simp] theorem fits_any_nil : (any r []).Fits Q ts ↔ r.Fits Q ts := .rfl

@[simp] theorem fits_any_cons {r' : Rule} :
    (any r (r' :: rs)).Fits Q ts ↔ r.Fits Q ts ∨ (any r' rs).Fits Q ts := .rfl

@[simp] theorem fits_optional : (optional r).Fits Q ts ↔ ts = [] ∨ r.Fits Q ts := .rfl

/-! How tokens that fit are put together. -/

namespace Fits

theorem nil : (all []).Fits Q [] := rfl

theorem cons (h : r.Fits Q ts) (hs : (all rs).Fits Q us) : (all (r :: rs)).Fits Q (ts ++ us) :=
  ⟨ts, us, h, hs, rfl⟩

theorem last (h : r.Fits Q ts) : (all [r]).Fits Q ts := fits_all_last.2 h

theorem token {t : Token} (h : r.Fits Q [t]) (hs : (all rs).Fits Q us) :
    (all (r :: rs)).Fits Q (t :: us) :=
  cons h hs

theorem mark {m : Mark} (hs : (all rs).Fits Q us) :
    (all (Rule.mark m :: rs)).Fits Q (.mark m :: us) :=
  fits_all_mark.2 ⟨us, hs, rfl⟩

theorem word {w : Keyword} (hs : (all rs).Fits Q us) :
    (all (Rule.word w :: rs)).Fits Q (.word w :: us) :=
  fits_all_word.2 ⟨us, hs, rfl⟩

theorem ident (x : String) (hs : (all rs).Fits Q us) :
    (all (Rule.ident :: rs)).Fits Q (.ident x :: us) :=
  fits_all_ident.2 ⟨x, us, hs, rfl⟩

theorem none : (many r).Fits Q [] := ⟨[], by simp, rfl⟩

theorem more (h : r.Fits Q ts) (hs : (many r).Fits Q us) : (many r).Fits Q (ts ++ us) := by
  obtain ⟨tss, htss, rfl⟩ := hs
  exact ⟨ts :: tss, by simpa using ⟨h, htss⟩, rfl⟩

end Fits

/-! ## Which tokens are operators and types -/

/-- The operators of a chain. -/
def Level.operator : Level → Rule
  | .multiplicative => any (mark .star) [mark .slash]
  | .additive => any (mark .plus) [mark .minus]
  | .conjunction => mark .andAnd
  | .disjunction => mark .orOr
  | _ => .empty

theorem production_chain {l o : Level} (h : l.operand? = some o) :
    production (.expr l) = chain (.expr o) l.operator := by
  cases l <;> cases h <;> rfl

theorem fits_operator {l o : Level} (h : l.operand? = some o) :
    l.operator.Fits Q ts ↔ ∃ t op, l.op? t = some op ∧ ts = [t] := by
  have hmul : ∀ t op, Parser.multiplicativeOp? t = some op → t = .mark .star ∨ t = .mark .slash := by
    intro t op ht
    unfold Parser.multiplicativeOp? at ht
    split at ht <;> simp_all
  have hadd : ∀ t op, Parser.additiveOp? t = some op → t = .mark .plus ∨ t = .mark .minus := by
    intro t op ht
    unfold Parser.additiveOp? at ht
    split at ht <;> simp_all
  have hand : ∀ t op, Parser.andOp? t = some op → t = .mark .andAnd := by
    intro t op ht
    unfold Parser.andOp? at ht
    split at ht <;> simp_all
  have hor : ∀ t op, Parser.orOp? t = some op → t = .mark .orOr := by
    intro t op ht
    unfold Parser.orOp? at ht
    split at ht <;> simp_all
  constructor
  · intro hfits
    cases l <;> cases h <;> simp only [Level.operator, fits_any_cons, fits_any_nil, fits_mark] at hfits
    · rcases hfits with rfl | rfl <;> exact ⟨_, _, rfl, rfl⟩
    · rcases hfits with rfl | rfl <;> exact ⟨_, _, rfl, rfl⟩
    · exact ⟨_, _, rfl, hfits⟩
    · exact ⟨_, _, rfl, hfits⟩
  · rintro ⟨t, op, hop, rfl⟩
    cases l <;> cases h <;>
      simp only [Level.operator, fits_any_cons, fits_any_nil, fits_mark, List.cons.injEq, and_true]
    · exact hmul t op hop
    · exact hadd t op hop
    · exact hand t op hop
    · exact hor t op hop

theorem fits_comparator :
    (production .comparator).Fits Q ts ↔ ∃ t op, Parser.comparisonOp? t = some op ∧ ts = [t] := by
  simp only [production, fits_any_cons, fits_any_nil, fits_mark]
  constructor
  · rintro (rfl | rfl | rfl | rfl | rfl | rfl) <;> exact ⟨_, _, rfl, rfl⟩
  · rintro ⟨t, op, hop, rfl⟩
    unfold Parser.comparisonOp? at hop
    split at hop <;> simp_all

theorem fits_sign :
    (any (mark .minus) [mark .bang]).Fits Q ts ↔ ∃ t op, Parser.signOp? t = some op ∧ ts = [t] := by
  simp only [fits_any_cons, fits_any_nil, fits_mark]
  constructor
  · rintro (rfl | rfl) <;> exact ⟨_, _, rfl, rfl⟩
  · rintro ⟨t, op, hop, rfl⟩
    unfold Parser.signOp? at hop
    split at hop <;> simp_all

theorem fits_scalar :
    (production .scalar).Fits Q ts ↔ ∃ t s, Parser.scalar? t = some s ∧ ts = [t] := by
  simp only [production, fits_any_cons, fits_any_nil, fits_word]
  constructor
  · rintro (rfl | rfl | rfl) <;> exact ⟨_, _, rfl, rfl⟩
  · rintro ⟨t, s, hs, rfl⟩
    unfold Parser.scalar? at hs
    split at hs <;> simp_all

/-! ## What spells a tree derives -/

theorem spells_scalar {t : Token} {s : Scalar} (h : Parser.scalar? t = some s) :
    Spells .scalar [t] :=
  spells_of_fits (fits_scalar.2 ⟨t, s, h, rfl⟩)

/-- The rule of what a phrase inside an expression is spelled with. -/
def Phrase.Spelled : Phrase → List Token → Prop
  | .place _ => Spells .place
  | .fields _ _ => (many (all [mark .dot, ident])).Fits Spells
  | .target _ => Spells .target
  | .expr l _ => Spells (.expr l)
  | .chain l _ _ => fun ts =>
    ∀ o, l.operand? = some o → (many (all [l.operator, phrase (.expr o)])).Fits Spells ts
  | .args _ => (commaList (.expr .assignment)).Fits Spells
  | .moreArgs _ => (many (all [mark .comma, phrase (.expr .assignment)])).Fits Spells

theorem Reads.spells {n m : NodeId} {x : Phrase} (h : Reads n ts x m) : x.Spelled ts := by
  induction h with
  | place s s' h ih => exact spells_of_fits (Fits.ident _ (Fits.last ih))
  | fieldsNil | moreNil => exact Fits.none
  | fieldsCons s s' h ih => exact Fits.more (Fits.mark (Fits.ident _ Fits.nil)) ih
  | target h ih => exact spells_of_fits (.inl ih)
  | targetParen h ih => exact spells_of_fits (.inr (Fits.mark (Fits.cons ih (Fits.mark Fits.nil))))
  | int => exact spells_of_fits (.inl ⟨_, .int, rfl⟩)
  | str => exact spells_of_fits (.inr (.inl ⟨_, .str, rfl⟩))
  | trueWord => exact spells_of_fits (.inr (.inr (.inl (fits_word.2 rfl))))
  | falseWord => exact spells_of_fits (.inr (.inr (.inr (.inl (fits_word.2 rfl)))))
  | placeExpr h ih => exact spells_of_fits (.inr (.inr (.inr (.inr (.inl ih)))))
  | @call _ _ _ x _ s s' h ih =>
    have hcall : Spells .call _ :=
      spells_of_fits (Fits.ident x (Fits.mark (Fits.cons ih (Fits.mark Fits.nil))))
    exact spells_of_fits (.inr (.inr (.inr (.inr (.inr (.inl hcall))))))
  | paren h ih =>
    refine spells_of_fits (.inr (.inr (.inr (.inr (.inr (.inr ?_))))))
    exact Fits.mark (Fits.cons ih (Fits.mark Fits.nil))
  | primary h ih => exact spells_of_fits (.inr ih)
  | sign s hop h ih =>
    exact spells_of_fits (.inl (Fits.token (fits_sign.2 ⟨_, _, hop, rfl⟩) (Fits.last ih)))
  | chain ho h hc ih ihc =>
    refine spells_of_fits ?_
    rw [production_chain ho]
    exact Fits.cons ih (Fits.last (ihc _ ho))
  | chainNil => exact fun _ _ => Fits.none
  | @chainCons n m k ts us l o t op left right e s ho hop h hc ih ihc =>
    intro o' ho'
    obtain rfl := Option.some.inj (ho.symm.trans ho')
    have hfirst : (all [l.operator, phrase (.expr o)]).Fits Spells (t :: ts) :=
      Fits.token ((fits_operator ho).2 ⟨t, op, hop, rfl⟩) (Fits.last ih)
    exact Fits.more hfirst (ihc o ho)
  | operand h ih => exact spells_of_fits ⟨_, _, ih, Fits.last (.inl rfl), by simp⟩
  | comparison s hop hl hr ihl ihr =>
    have hop' : Spells .comparator [_] := spells_of_fits (fits_comparator.2 ⟨_, _, hop, rfl⟩)
    exact spells_of_fits (Fits.cons ihl (Fits.last (.inr (Fits.token hop' (Fits.last ihr)))))
  | disjunction h ih => exact spells_of_fits (.inr ih)
  | assign s hp he ihp ihe =>
    exact spells_of_fits (.inl (Fits.cons ihp (Fits.mark (Fits.last ihe))))
  | argsNil => exact .inl rfl
  | argsCons h hs ih ihs => exact .inr (Fits.cons ih (Fits.last ihs))
  | @moreCons n m k ts us e es h hs ih ihs =>
    have hfirst : (all [mark .comma, phrase (.expr .assignment)]).Fits Spells (.mark .comma :: ts) :=
      Fits.mark (Fits.last ih)
    exact Fits.more hfirst ihs

theorem ReadsType.spells {n m : NodeId} {t : TypeSpec} (h : ReadsType n ts t m) :
    Spells .type ts := by
  cases h with
  | scalar h => exact spells_of_fits (.inl (spells_scalar h))
  | struct s => exact spells_of_fits (.inr (Fits.word (Fits.ident _ Fits.nil)))

theorem ReadsVar.spells {n m : NodeId} {d : VarDecl} (h : ReadsVar n ts d m) :
    Spells .varDecl ts := by
  cases h with
  | mk s s' h => exact spells_of_fits (Fits.cons h.spells (Fits.ident _ (Fits.mark Fits.nil)))

theorem ReadsMany.fits {α : Type} {R : NodeId → List Token → α → NodeId → Prop} {n m : NodeId}
    {as : List α} (hR : ∀ {n m ts a}, R n ts a m → r.Fits Q ts) (h : ReadsMany R n ts as m) :
    (many r).Fits Q ts := by
  induction h with
  | nil => exact Fits.none
  | cons h hs ih => exact Fits.more (hR h) ih

/-- The rule of what a part of a function is spelled with. -/
def Part.Spelled : Part → List Token → Prop
  | .stmt _ => Spells .stmt
  | .stmts _ => (many (phrase .stmt)).Fits Spells
  | .body _ => Spells .body

theorem ReadsStmt.spells {n m : NodeId} {x : Part} (h : ReadsStmt n ts x m) : x.Spelled ts := by
  induction h with
  | assign s s' hp he =>
    refine spells_of_fits (.inl ?_)
    exact Fits.cons hp.spells (Fits.mark (Fits.cons he.spells (Fits.mark Fits.nil)))
  | increment s h =>
    refine spells_of_fits (.inr (.inl ?_))
    exact Fits.cons h.spells (Fits.mark (Fits.mark Fits.nil))
  | decrement s h =>
    refine spells_of_fits (.inr (.inr (.inl ?_)))
    exact Fits.cons h.spells (Fits.mark (Fits.mark Fits.nil))
  | @call _ _ _ x _ s s' s'' h =>
    have hcall : Spells .call _ :=
      spells_of_fits (Fits.ident x (Fits.mark (Fits.cons h.spells (Fits.mark Fits.nil))))
    have hstmt : (all [phrase .call, mark .semicolon]).Fits Spells _ :=
      Fits.cons hcall (Fits.mark Fits.nil)
    exact spells_of_fits (.inr (.inr (.inr (.inl (by simpa using hstmt)))))
  | read s h =>
    refine spells_of_fits (.inr (.inr (.inr (.inr (.inl ?_)))))
    exact Fits.word (Fits.mark (Fits.cons h.spells (Fits.mark Fits.nil)))
  | write s h =>
    refine spells_of_fits (.inr (.inr (.inr (.inr (.inr (.inl ?_))))))
    exact Fits.word (Fits.mark (Fits.cons h.spells (Fits.mark Fits.nil)))
  | ifThen s he hb ihb =>
    refine spells_of_fits (.inr (.inr (.inr (.inr (.inr (.inr (.inl ?_)))))))
    have htail : (all [phrase .body, optional (all [word .elseWord, phrase .body])]).Fits Spells _ :=
      Fits.cons ihb (Fits.last (.inl rfl))
    rw [List.append_nil] at htail
    exact Fits.word (Fits.mark (Fits.cons he.spells (Fits.mark htail)))
  | ifElse s he hb hb' ihb ihb' =>
    refine spells_of_fits (.inr (.inr (.inr (.inr (.inr (.inr (.inl ?_)))))))
    have helse : (optional (all [word .elseWord, phrase .body])).Fits Spells _ :=
      .inr (Fits.word (Fits.last ihb'))
    exact Fits.word (Fits.mark (Fits.cons he.spells (Fits.mark (Fits.cons ihb (Fits.last helse)))))
  | whileLoop s he hb ihb =>
    refine spells_of_fits (.inr (.inr (.inr (.inr (.inr (.inr (.inr (.inl ?_))))))))
    exact Fits.word (Fits.mark (Fits.cons he.spells (Fits.mark (Fits.last ihb))))
  | ret s =>
    refine spells_of_fits (.inr (.inr (.inr (.inr (.inr (.inr (.inr (.inr ?_))))))))
    have hnone : (optional (phrase (.expr .assignment))).Fits Spells [] := .inl rfl
    exact Fits.word (Fits.cons hnone (Fits.mark Fits.nil))
  | retValue s h =>
    refine spells_of_fits (.inr (.inr (.inr (.inr (.inr (.inr (.inr (.inr ?_))))))))
    exact Fits.word (Fits.cons (.inr h.spells) (Fits.mark Fits.nil))
  | nil => exact Fits.none
  | cons h hs ih ihs => exact Fits.more ih ihs
  | body hd hs ihs =>
    have hvars := hd.fits (r := phrase .varDecl) (Q := Spells) fun h => h.spells
    refine spells_of_fits ?_
    rw [List.append_assoc]
    exact Fits.mark (Fits.cons hvars (Fits.cons ihs (Fits.mark Fits.nil)))

theorem ReadsParam.spells {n m : NodeId} {p : Param} (h : ReadsParam n ts p m) :
    Spells .param ts := by
  cases h with
  | mk s s' h => exact spells_of_fits (Fits.token (spells_scalar h) (Fits.ident _ Fits.nil))

theorem ReadsParams.spells {n m : NodeId} {ps : List Param} (h : ReadsParams n ts ps m) :
    (commaList .param).Fits Spells ts := by
  cases h with
  | nil => exact .inl rfl
  | cons h hs =>
    refine .inr (Fits.cons h.spells (Fits.last (hs.fits fun hnext => ?_)))
    cases hnext with
    | mk h => exact Fits.mark (Fits.last h.spells)

theorem ReadsDecl.spells {n m : NodeId} {d : Decl} (h : ReadsDecl n ts d m) : Spells .decl ts := by
  cases h with
  | var h => exact spells_of_fits (.inr (.inl h.spells))
  | struct s s' h hne =>
    refine spells_of_fits (.inl (Fits.word (Fits.ident _ (Fits.mark ?_))))
    cases h with
    | nil => exact absurd rfl hne
    | cons h hs =>
      have hrest := hs.fits (r := phrase .varDecl) (Q := Spells) fun h => h.spells
      rw [List.append_assoc]
      exact Fits.cons h.spells (Fits.cons hrest (Fits.mark (Fits.mark Fits.nil)))
  | fn s s' ht hp hb =>
    refine spells_of_fits (.inr (.inr ?_))
    exact Fits.token (spells_scalar ht) (Fits.ident _ (Fits.mark (Fits.cons hp.spells
      (Fits.mark (Fits.last hb.spells)))))

theorem ReadsProgram.spells {p : Program} (h : ReadsProgram ts p) : Spells .program ts := by
  cases h with
  | mk h => exact spells_of_fits (h.fits (r := phrase .decl) fun h => h.spells)

/-! ## What derives spells a tree -/

/-- Tokens of a kind of phrase can be read as a tree, wherever the numbering stands. -/
def Nonterminal.Readable : Nonterminal → List Token → Prop
  | .program, ts => ∃ p, ReadsProgram ts p
  | .decl, ts => ∀ n, ∃ d m, ReadsDecl n ts d m
  | .varDecl, ts => ∀ n, ∃ d m, ReadsVar n ts d m
  | .type, ts => ∀ n, ∃ t m, ReadsType n ts t m
  | .scalar, ts => ∃ t s, Parser.scalar? t = some s ∧ ts = [t]
  | .param, ts => ∀ n, ∃ p m, ReadsParam n ts p m
  | .body, ts => ∀ n, ∃ b m, ReadsStmt n ts (.body b) m
  | .stmt, ts => ∀ n, ∃ s m, ReadsStmt n ts (.stmt s) m
  | .place, ts => ∀ n, ∃ p m, Reads n ts (.place p) m
  | .target, ts => ∀ n, ∃ p m, Reads n ts (.target p) m
  | .expr l, ts => ∀ n, ∃ e m, Reads n ts (.expr l e) m
  | .comparator, ts => ∃ t op, Parser.comparisonOp? t = some op ∧ ts = [t]
  | .call, ts => ∃ x us, (∀ n, ∃ es m, Reads n us (.args es) m) ∧
      ts = .ident x :: .mark .leftParen :: (us ++ [.mark .rightParen])

section Readable

open Nonterminal

variable {tss : List (List Token)}

theorem exists_fields (h : ∀ us ∈ tss, (all [mark .dot, ident]).Fits Q us) (n : NodeId)
    (base : Place) : ∃ p m, Reads n tss.flatten (.fields base p) m := by
  induction tss generalizing n base with
  | nil => exact ⟨base, n, .fieldsNil⟩
  | cons us tss ih =>
    rw [List.forall_mem_cons, fits_all_mark] at h
    obtain ⟨⟨_, hname, rfl⟩, htss⟩ := h
    obtain ⟨x, rfl⟩ := fits_ident.1 (fits_all_last.1 hname)
    obtain ⟨p, m, hp⟩ := ih htss (n + 2) (.field ⟨n + 1, default⟩ base ⟨n, x, default⟩)
    exact ⟨p, m, .fieldsCons _ _ hp⟩

theorem readable_place (h : (production .place).Fits Readable ts) : place.Readable ts := by
  intro n
  obtain ⟨x, _, hfields, rfl⟩ := fits_all_ident.1 h
  obtain ⟨tss, htss, rfl⟩ := fits_all_last.1 hfields
  obtain ⟨p, m, hp⟩ := exists_fields htss (n + 2) (.var ⟨n + 1, default⟩ ⟨n, x, default⟩)
  exact ⟨p, m, .place _ _ hp⟩

theorem readable_target (h : (production .target).Fits Readable ts) : target.Readable ts := by
  intro n
  simp only [production, fits_any_cons, fits_any_nil, fits_phrase, fits_all_mark, fits_all_phrase,
    fits_all_nil] at h
  rcases h with h | ⟨_, ⟨us, _, h, ⟨_, rfl, rfl⟩, rfl⟩, rfl⟩
  · obtain ⟨p, m, hp⟩ := h n
    exact ⟨p, m, .target hp⟩
  · obtain ⟨p, m, hp⟩ := h n
    exact ⟨p, m, .targetParen hp⟩

/-- The operators and operands behind the first operand of a chain. -/
theorem exists_chain {l o : Level} (ho : l.operand? = some o)
    (h : ∀ us ∈ tss, (all [l.operator, phrase (.expr o)]).Fits Readable us) (n : NodeId)
    (left : Expr) : ∃ e m, Reads n tss.flatten (.chain l left e) m := by
  induction tss generalizing n left with
  | nil => exact ⟨left, n, .chainNil⟩
  | cons us tss ih =>
    rw [List.forall_mem_cons] at h
    obtain ⟨⟨_, ts, hop, hright, rfl⟩, htss⟩ := h
    obtain ⟨t, op, ht, rfl⟩ := (fits_operator ho).1 hop
    obtain ⟨right, m, hr⟩ := fits_all_last.1 hright n
    obtain ⟨e, k, he⟩ := ih htss (m + 1) (.binary ⟨m, default⟩ op left right)
    exact ⟨e, k, .chainCons _ ho ht hr he⟩

theorem readable_chain {l o : Level} (ho : l.operand? = some o)
    (h : (production (.expr l)).Fits Readable ts) : (expr l).Readable ts := by
  intro n
  rw [production_chain ho] at h
  obtain ⟨us, _, hleft, hrest, rfl⟩ := fits_all_phrase.1 h
  obtain ⟨tss, htss, rfl⟩ := fits_all_last.1 hrest
  obtain ⟨left, m, hl⟩ := hleft n
  obtain ⟨e, k, he⟩ := exists_chain ho htss m left
  exact ⟨e, k, .chain ho hl he⟩

theorem exists_moreArgs
    (h : ∀ us ∈ tss, (all [mark .comma, phrase (.expr .assignment)]).Fits Readable us)
    (n : NodeId) : ∃ es m, Reads n tss.flatten (.moreArgs es) m := by
  induction tss generalizing n with
  | nil => exact ⟨[], n, .moreNil⟩
  | cons us tss ih =>
    rw [List.forall_mem_cons, fits_all_mark] at h
    obtain ⟨⟨ts, hts, rfl⟩, htss⟩ := h
    obtain ⟨e, m, he⟩ := fits_all_last.1 hts n
    obtain ⟨es, k, hes⟩ := ih htss m
    exact ⟨e :: es, k, .moreCons he hes⟩

theorem exists_args (h : (commaList (.expr .assignment)).Fits Readable ts) (n : NodeId) :
    ∃ es m, Reads n ts (.args es) m := by
  rcases h with rfl | ⟨us, _, hfirst, hrest, rfl⟩
  · exact ⟨[], n, .argsNil⟩
  · obtain ⟨tss, htss, rfl⟩ := fits_all_last.1 hrest
    obtain ⟨e, m, he⟩ := hfirst n
    obtain ⟨es, k, hes⟩ := exists_moreArgs htss m
    exact ⟨e :: es, k, .argsCons he hes⟩

theorem readable_call (h : (production .call).Fits Readable ts) : call.Readable ts := by
  obtain ⟨x, _, hparen, rfl⟩ := fits_all_ident.1 h
  obtain ⟨_, hrest, rfl⟩ := fits_all_mark.1 hparen
  obtain ⟨us, _, hargs, hend, rfl⟩ := fits_all_cons.1 hrest
  obtain rfl := fits_mark.1 (fits_all_last.1 hend)
  exact ⟨x, us, exists_args hargs, rfl⟩

theorem readable_primary (h : (production (.expr .primary)).Fits Readable ts) :
    (expr .primary).Readable ts := by
  intro n
  simp only [production, fits_any_cons, fits_any_nil, fits_phrase, fits_word, fits_all_mark,
    fits_all_phrase, fits_all_nil] at h
  rcases h with ⟨_, hint, rfl⟩ | ⟨_, hstr, rfl⟩ | rfl | rfl | h | h | ⟨_, ⟨us, _, h, ⟨_, rfl, rfl⟩, rfl⟩, rfl⟩
  · cases hint
    exact ⟨_, _, .int default⟩
  · cases hstr
    exact ⟨_, _, .str default⟩
  · exact ⟨_, _, .trueWord default⟩
  · exact ⟨_, _, .falseWord default⟩
  · obtain ⟨p, m, hp⟩ := h n
    exact ⟨_, m, .placeExpr hp⟩
  · obtain ⟨x, us, hargs, rfl⟩ := h
    obtain ⟨es, m, hes⟩ := hargs (n + 1)
    exact ⟨_, _, .call default default hes⟩
  · obtain ⟨e, m, he⟩ := h n
    exact ⟨e, m, .paren he⟩

theorem readable_unary (h : (production (.expr .unary)).Fits Readable ts) :
    (expr .unary).Readable ts := by
  intro n
  rcases h with ⟨_, us, hsign, h, rfl⟩ | h
  · obtain ⟨t, op, hop, rfl⟩ := fits_sign.1 hsign
    obtain ⟨e, m, he⟩ := fits_all_last.1 h n
    exact ⟨_, _, .sign default hop he⟩
  · obtain ⟨e, m, he⟩ := h n
    exact ⟨e, m, .primary he⟩

theorem readable_comparison (h : (production (.expr .comparison)).Fits Readable ts) :
    (expr .comparison).Readable ts := by
  intro n
  obtain ⟨us, _, hleft, hrest, rfl⟩ := fits_all_phrase.1 h
  obtain ⟨left, m, hl⟩ := hleft n
  rcases fits_all_last.1 hrest with rfl | hrest
  · exact ⟨left, m, by simpa using Reads.operand hl⟩
  · obtain ⟨_, vs, ⟨t, op, hop, rfl⟩, hright, rfl⟩ := fits_all_phrase.1 hrest
    obtain ⟨right, k, hr⟩ := fits_all_last.1 hright m
    exact ⟨_, _, .comparison default hop hl hr⟩

theorem readable_assignment (h : (production (.expr .assignment)).Fits Readable ts) :
    (expr .assignment).Readable ts := by
  intro n
  rcases h with ⟨us, _, htarget, h, rfl⟩ | h
  · obtain ⟨p, m, hp⟩ := htarget n
    obtain ⟨vs, hvs, rfl⟩ := fits_all_mark.1 h
    obtain ⟨e, k, he⟩ := fits_all_last.1 hvs m
    exact ⟨_, _, .assign default hp he⟩
  · obtain ⟨e, m, he⟩ := h n
    exact ⟨e, m, .disjunction he⟩

theorem readable_expr (l : Level) (h : (production (.expr l)).Fits Readable ts) :
    (expr l).Readable ts := by
  cases l with
  | primary => exact readable_primary h
  | unary => exact readable_unary h
  | multiplicative => exact readable_chain rfl h
  | additive => exact readable_chain rfl h
  | comparison => exact readable_comparison h
  | conjunction => exact readable_chain rfl h
  | disjunction => exact readable_chain rfl h
  | assignment => exact readable_assignment h

theorem readable_type (h : (production .type).Fits Readable ts) : type.Readable ts := by
  intro n
  simp only [production, fits_any_cons, fits_any_nil, fits_phrase, fits_all_word, fits_all_ident,
    fits_all_nil] at h
  rcases h with ⟨t, s, hs, rfl⟩ | ⟨_, ⟨x, _, rfl, rfl⟩, rfl⟩
  · exact ⟨_, _, .scalar hs⟩
  · exact ⟨_, _, .struct default⟩

theorem readable_varDecl (h : (production .varDecl).Fits Readable ts) : varDecl.Readable ts := by
  intro n
  simp only [production, fits_all_phrase, fits_all_ident, fits_all_mark, fits_all_nil] at h
  obtain ⟨us, _, htype, ⟨x, _, ⟨_, rfl, rfl⟩, rfl⟩, rfl⟩ := h
  obtain ⟨type, m, ht⟩ := htype n
  exact ⟨_, _, .mk default default ht⟩

theorem readable_param (h : (production .param).Fits Readable ts) : param.Readable ts := by
  intro n
  simp only [production, fits_all_phrase, fits_all_ident, fits_all_nil] at h
  obtain ⟨_, _, ⟨t, s, hs, rfl⟩, ⟨x, _, rfl, rfl⟩, rfl⟩ := h
  exact ⟨_, _, .mk default default hs⟩

/-- Phrases one after the other, as many as there are lists of tokens. -/
theorem exists_many {α : Type} {R : NodeId → List Token → α → NodeId → Prop}
    (h : ∀ us ∈ tss, ∀ n, ∃ a m, R n us a m) (n : NodeId) :
    ∃ as m, ReadsMany R n tss.flatten as m := by
  induction tss generalizing n with
  | nil => exact ⟨[], n, .nil⟩
  | cons us tss ih =>
    rw [List.forall_mem_cons] at h
    obtain ⟨a, m, ha⟩ := h.1 n
    obtain ⟨as, k, has⟩ := ih h.2 m
    exact ⟨a :: as, k, .cons ha has⟩

theorem exists_stmts (h : ∀ us ∈ tss, stmt.Readable us) (n : NodeId) :
    ∃ ss m, ReadsStmt n tss.flatten (.stmts ss) m := by
  induction tss generalizing n with
  | nil => exact ⟨[], n, .nil⟩
  | cons us tss ih =>
    rw [List.forall_mem_cons] at h
    obtain ⟨s, m, hs⟩ := h.1 n
    obtain ⟨ss, k, hss⟩ := ih h.2 m
    exact ⟨s :: ss, k, .cons hs hss⟩

theorem readable_body (h : (production .body).Fits Readable ts) : body.Readable ts := by
  intro n
  obtain ⟨_, hbody, rfl⟩ := fits_all_mark.1 h
  obtain ⟨_, _, ⟨vars, hvars, rfl⟩, hrest, rfl⟩ := fits_all_cons.1 hbody
  obtain ⟨_, _, ⟨stmts, hstmts, rfl⟩, hend, rfl⟩ := fits_all_cons.1 hrest
  obtain rfl := fits_mark.1 (fits_all_last.1 hend)
  obtain ⟨ds, m, hd⟩ := exists_many (R := ReadsVar) hvars n
  obtain ⟨ss, k, hs⟩ := exists_stmts hstmts m
  exact ⟨_, k, by simpa using ReadsStmt.body hd hs⟩

theorem readable_stmt (h : (production .stmt).Fits Readable ts) : stmt.Readable ts := by
  intro n
  simp only [production, fits_any_cons, fits_any_nil, fits_all_phrase, fits_all_mark, fits_all_word,
    fits_all_last, fits_optional, fits_phrase, fits_mark] at h
  rcases h with h | h | h | h | h | h | h | h | h
  · obtain ⟨us, _, hp, ⟨_, ⟨vs, _, he, rfl, rfl⟩, rfl⟩, rfl⟩ := h
    obtain ⟨p, m, hp⟩ := hp n
    obtain ⟨e, k, he⟩ := he m
    exact ⟨_, _, .assign default default hp he⟩
  · obtain ⟨us, _, hp, ⟨_, rfl, rfl⟩, rfl⟩ := h
    obtain ⟨p, m, hp⟩ := hp n
    exact ⟨_, _, .increment default hp⟩
  · obtain ⟨us, _, hp, ⟨_, rfl, rfl⟩, rfl⟩ := h
    obtain ⟨p, m, hp⟩ := hp n
    exact ⟨_, _, .decrement default hp⟩
  · obtain ⟨_, _, ⟨x, us, hargs, rfl⟩, rfl, rfl⟩ := h
    obtain ⟨es, m, hes⟩ := hargs (n + 1)
    exact ⟨_, _, by simpa using ReadsStmt.call default default default hes⟩
  · obtain ⟨_, ⟨_, ⟨us, _, hp, rfl, rfl⟩, rfl⟩, rfl⟩ := h
    obtain ⟨p, m, hp⟩ := hp n
    exact ⟨_, _, .read default hp⟩
  · obtain ⟨_, ⟨_, ⟨us, _, he, rfl, rfl⟩, rfl⟩, rfl⟩ := h
    obtain ⟨e, m, he⟩ := he n
    exact ⟨_, _, .write default he⟩
  · obtain ⟨_, ⟨_, ⟨us, _, he, ⟨_, ⟨vs, _, hb, helse, rfl⟩, rfl⟩, rfl⟩, rfl⟩, rfl⟩ := h
    obtain ⟨e, m, he⟩ := he n
    obtain ⟨b, k, hb⟩ := hb m
    rcases helse with rfl | ⟨ws, hb', rfl⟩
    · exact ⟨_, _, by simpa using ReadsStmt.ifThen default he hb⟩
    · obtain ⟨b', j, hb'⟩ := hb' k
      exact ⟨_, _, .ifElse default he hb hb'⟩
  · obtain ⟨_, ⟨_, ⟨us, _, he, ⟨vs, hb, rfl⟩, rfl⟩, rfl⟩, rfl⟩ := h
    obtain ⟨e, m, he⟩ := he n
    obtain ⟨b, k, hb⟩ := hb m
    exact ⟨_, _, .whileLoop default he hb⟩
  · obtain ⟨_, ⟨us, _, he, hend, rfl⟩, rfl⟩ := h
    obtain rfl := fits_mark.1 (fits_all_last.1 hend)
    rcases he with rfl | he
    · exact ⟨_, _, .ret default⟩
    · obtain ⟨e, m, he⟩ := he n
      exact ⟨_, _, .retValue default he⟩

theorem exists_params (h : (commaList .param).Fits Readable ts) (n : NodeId) :
    ∃ ps m, ReadsParams n ts ps m := by
  rcases h with rfl | ⟨us, _, hfirst, hrest, rfl⟩
  · exact ⟨[], n, .nil⟩
  · obtain ⟨tss, htss, rfl⟩ := fits_all_last.1 hrest
    have hnext : ∀ vs ∈ tss, ∀ n, ∃ p m, ReadsNextParam n vs p m := by
      intro vs hvs n
      obtain ⟨ws, hws, rfl⟩ := fits_all_mark.1 (htss vs hvs)
      obtain ⟨p, m, hp⟩ := fits_all_last.1 hws n
      exact ⟨p, m, .mk hp⟩
    obtain ⟨p, m, hp⟩ := hfirst n
    obtain ⟨ps, k, hps⟩ := exists_many hnext m
    exact ⟨p :: ps, k, .cons hp hps⟩

theorem readable_decl (h : (production .decl).Fits Readable ts) : decl.Readable ts := by
  intro n
  rcases h with h | h | h
  · simp only [fits_all_word, fits_all_ident, fits_all_mark, fits_all_phrase] at h
    obtain ⟨_, ⟨x, _, ⟨_, ⟨us, _, hfirst, hrest, rfl⟩, rfl⟩, rfl⟩, rfl⟩ := h
    obtain ⟨_, _, ⟨tss, htss, rfl⟩, hend, rfl⟩ := fits_all_cons.1 hrest
    simp only [fits_all_mark, fits_all_last, fits_mark] at hend
    obtain ⟨_, rfl, rfl⟩ := hend
    obtain ⟨d, m, hd⟩ := hfirst (n + 1)
    obtain ⟨ds, k, hds⟩ := exists_many (R := ReadsVar) htss m
    exact ⟨_, k, by simpa using ReadsDecl.struct default default (.cons hd hds) (by simp)⟩
  · obtain ⟨d, m, hd⟩ := h n
    exact ⟨_, m, .var hd⟩
  · simp only [fits_any_nil, fits_all_phrase, fits_all_ident, fits_all_mark] at h
    obtain ⟨_, _, ⟨t, s, hs, rfl⟩, ⟨x, _, ⟨_, hrest, rfl⟩, rfl⟩, rfl⟩ := h
    obtain ⟨us, _, hparams, hend, rfl⟩ := fits_all_cons.1 hrest
    obtain ⟨vs, hbody, rfl⟩ := fits_all_mark.1 hend
    obtain ⟨ps, m, hps⟩ := exists_params hparams (n + 1)
    obtain ⟨b, k, hb⟩ := fits_all_last.1 hbody m
    exact ⟨_, k, .fn default default hs hps hb⟩

theorem readable_program (h : (production .program).Fits Readable ts) : program.Readable ts := by
  obtain ⟨tss, htss, rfl⟩ := h
  obtain ⟨ds, m, hds⟩ := exists_many (R := ReadsDecl) htss 0
  exact ⟨_, .mk hds⟩

theorem readable_of_fits (x : Nonterminal) (ts : List Token) (h : (production x).Fits Readable ts) :
    x.Readable ts := by
  cases x with
  | program => exact readable_program h
  | decl => exact readable_decl h
  | varDecl => exact readable_varDecl h
  | type => exact readable_type h
  | scalar => exact fits_scalar.1 h
  | param => exact readable_param h
  | body => exact readable_body h
  | stmt => exact readable_stmt h
  | place => exact readable_place h
  | target => exact readable_target h
  | expr l => exact readable_expr l h
  | comparator => exact fits_comparator.1 h
  | call => exact readable_call h

end Readable

/-- The table derives the spellings of programs and nothing else. -/
theorem spells_program_iff : Spells .program ts ↔ ∃ p, ReadsProgram ts p := by
  constructor
  · intro h
    exact h.fits readable_of_fits
  · rintro ⟨p, hp⟩
    exact hp.spells

end Grammar

open Grammar

/-- **The parser accepts exactly what the productions derive**, and the tree that it returns is the
only one, up to spans, that the tokens spell. -/
theorem parse_exact (ls : List Lexeme) :
    ((∃ p, parse ls = .ok p) ↔ Spells .program (ls.map Lexeme.token)) ∧
      ∀ p, parse ls = .ok p → ReadsProgram (ls.map Lexeme.token) p ∧
        ∀ q, ReadsProgram (ls.map Lexeme.token) q → q.shape = p.shape := by
  refine ⟨⟨?_, ?_⟩, ?_⟩
  · rintro ⟨p, hp⟩
    exact (parse_sound hp).spells
  · intro h
    obtain ⟨p, hp⟩ := spells_program_iff.1 h
    obtain ⟨q, hq, -⟩ := parse_complete hp
    exact ⟨q, hq⟩
  · intro p hp
    refine ⟨parse_sound hp, fun q hq => ?_⟩
    obtain ⟨p', hp', hshape⟩ := parse_complete hq
    obtain rfl := Except.ok.inj (hp.symm.trans hp')
    exact hshape.symm

/-- A chain of three operands, an assignment in an argument and a place in parentheses. -/
theorem parse_exact_chain : ∃ ts p,
    tokenize "int f(int n) \x7b cin >> (n); return f(n = n - 1 - 2); \x7d" = .ok ts ∧
      parse ts.lexemes = .ok p ∧ Spells .program (ts.lexemes.map Lexeme.token) ∧
      ReadsProgram (ts.lexemes.map Lexeme.token) p ∧
      ∀ q, ReadsProgram (ts.lexemes.map Lexeme.token) q → q.shape = p.shape := by
  obtain ⟨ts, p, hts, hp⟩ := exists_of_read
    "int f(int n) \x7b cin >> (n); return f(n = n - 1 - 2); \x7d" (by decide +kernel)
  have hexact := parse_exact ts.lexemes
  exact ⟨ts, p, hts, hp, hexact.1.1 ⟨p, hp⟩, hexact.2 p hp⟩

end FlatC
