import FlatC.Ty
import FlatC.Proofs.Syntax.Lexing

/-!
# The printed forms of types

A printed type can be read back, up to one thing: `string` is the type of a literal, and also how
a struct of that name is printed. `Ty.conflate` puts the struct in the place of the literals' type,
and the printed form of a type determines the conflated type (`Ty.text_inj`).

A printed form opens in one of four ways (`Ty.Opening`), and the opening tells how to read on. A
type can stand in the middle of a longer text, so everything is said of a type with a text behind
it that does not go on with a name.
-/

namespace FlatC

/-- Some text has the token `t` in it. -/
def Lexer.Produces (t : Token) : Prop :=
  ∃ source ts l, tokenize source = .ok ts ∧ l ∈ ts.lexemes ∧ l.token = t

theorem Lexer.Produces.wf {t : Token} (h : Produces t) : t.Wf := by
  obtain ⟨source, ts, l, hlex, hl, rfl⟩ := h
  exact tokenize_wf hlex l hl

theorem Lexer.produces_ident {x : String} (h : (Token.ident x).Wf) : Produces (.ident x) := by
  have hlexes : Lexes (x.toList ++ []) [.ident x] := .ident h (fun c hc => by cases hc) .nil
  rw [List.append_nil] at hlexes
  obtain ⟨ts, hlex, htokens, -⟩ := hlexes.tokenize
  have hmem : Token.ident x ∈ ts.lexemes.map Lexeme.token := by simp [htokens]
  obtain ⟨l, hl, htoken⟩ := List.mem_map.1 hmem
  exact ⟨x, ts, l, hlex, hl, htoken⟩

namespace Ty

mutual

/-- The names of structs in a type, at every depth, are identifiers. -/
def Named : Ty → Prop
  | structDef x | struct x => Lexer.Produces (.ident x)
  | fn params ret => AllNamed params ∧ ret.Named
  | int | bool | void | string | error => True

def AllNamed : List Ty → Prop
  | [] => True
  | t :: ts => t.Named ∧ AllNamed ts

end

mutual

/-- The type with the struct `string` in the place of every `string`, at every depth. -/
def conflate : Ty → Ty
  | string => struct "string"
  | fn params ret => fn (conflateAll params) ret.conflate
  | int => int
  | bool => bool
  | void => void
  | structDef x => structDef x
  | struct x => struct x
  | error => error

def conflateAll : List Ty → List Ty
  | [] => []
  | t :: ts => t.conflate :: conflateAll ts

end

mutual

/-- No struct in the type, at any depth, is named `string`. -/
def AvoidsString : Ty → Prop
  | struct x => x ≠ "string"
  | fn params ret => AllAvoidString params ∧ ret.AvoidsString
  | int | bool | void | string | structDef _ | error => True

def AllAvoidString : List Ty → Prop
  | [] => True
  | t :: ts => t.AvoidsString ∧ AllAvoidString ts

end

/-! ## How printed forms open -/

/-- What the first characters of a printed type tell of it. -/
inductive Opening where
  /-- The type is printed as one word. -/
  | word (x : String)
  | structDef
  | fn
  | error
  deriving DecidableEq

def opening : Ty → Opening
  | structDef _ => .structDef
  | fn _ _ => .fn
  | error => .error
  | t => .word t.text

/-- The opening of a text. -/
def Opening.read (cs : List Char) : Option Opening :=
  let x := String.ofList (cs.takeWhile Lexer.isWordChar)
  if x = "struct" then some .structDef
  else if x ≠ "" then some (.word x)
  else
    match cs.head? with
    | some '(' => some .fn
    | some '<' => some .error
    | _ => none

section Reading

variable {r r' : List Char}

theorem Opening.read_word {x : String} (hx : Lexer.IsWord x) (hne : x ≠ "struct")
    (hr : Lexer.Apart r) : read (x.toList ++ r) = some (.word x) := by
  have hempty : x ≠ "" := by
    rintro rfl
    obtain ⟨c, w, hxc, -⟩ := hx
    cases hxc
  unfold read
  rw [Lexer.takeWhile_append (Lexer.isWordChar_of_isWord hx) hr, String.ofList_toList]
  simp only [if_neg hne, if_pos hempty]

theorem structDef_text (x : String) : (structDef x).text.toList ++ r =
    "struct".toList ++ '-' :: 'd' :: 'e' :: 'f' :: ' ' :: (x.toList ++ r) := by
  show ("struct-def " ++ x).toList ++ r = _
  simp

theorem fn_text (params : List Ty) (ret : Ty) : (fn params ret).text.toList ++ r =
    '(' :: ((textList params).toList ++ ')' :: (" -> ".toList ++ (ret.text.toList ++ r))) := by
  show ("(" ++ textList params ++ ") -> " ++ ret.text).toList ++ r = _
  simp

theorem read_text {a : Ty} (ha : a.Named) (hr : Lexer.Apart r) :
    Opening.read (a.text.toList ++ r) = some a.opening := by
  cases a with
  | int => exact Opening.read_word (Lexer.isWord_keyword .int) (by decide) hr
  | bool => exact Opening.read_word (Lexer.isWord_keyword .bool) (by decide) hr
  | void => exact Opening.read_word (Lexer.isWord_keyword .void) (by decide) hr
  | string =>
    exact Opening.read_word ⟨_, _, rfl, rfl, List.all_eq_true.1 rfl⟩ (by decide) hr
  | struct x =>
    obtain ⟨hword, hkeyword⟩ := Lexer.Produces.wf ha
    refine Opening.read_word hword ?_ hr
    rintro rfl
    exact absurd hkeyword (by decide)
  | structDef x =>
    have hword : ∀ c ∈ "struct".toList, Lexer.isWordChar c = true :=
      Lexer.isWordChar_of_isWord (Lexer.isWord_keyword .struct)
    rw [structDef_text, Opening.read,
      Lexer.takeWhile_append hword (Lexer.apart_cons (c := '-') rfl)]
    rfl
  | fn params ret =>
    rw [fn_text]
    rfl
  | error => rfl

/-- The conflated type that a word stands for. -/
def ofWord (x : String) : Ty :=
  if x = "int" then int else if x = "bool" then bool else if x = "void" then void else struct x

theorem conflate_of_opening_word {a : Ty} {x : String} (ha : a.Named) (h : a.opening = .word x) :
    a.text = x ∧ a.conflate = ofWord x := by
  cases a with
  | structDef | fn | error => cases h
  | int | bool | void | string =>
    cases h
    exact ⟨rfl, rfl⟩
  | struct y =>
    have hkeyword := (Lexer.Produces.wf ha).2
    cases h
    refine ⟨rfl, ?_⟩
    have hint : y ≠ "int" := by rintro rfl; exact absurd hkeyword (by decide)
    have hbool : y ≠ "bool" := by rintro rfl; exact absurd hkeyword (by decide)
    have hvoid : y ≠ "void" := by rintro rfl; exact absurd hkeyword (by decide)
    show struct y = ofWord y
    simp [ofWord, hint, hbool, hvoid]

/-! ## Reading a type back -/

theorem word_append_inj {x y : String} (hx : Lexer.IsWord x) (hy : Lexer.IsWord y)
    (hr : Lexer.Apart r) (hr' : Lexer.Apart r') (h : x.toList ++ r = y.toList ++ r') :
    x = y ∧ r = r' := by
  have htake : x.toList = y.toList := by
    rw [← Lexer.takeWhile_append (Lexer.isWordChar_of_isWord hx) hr, h,
      Lexer.takeWhile_append (Lexer.isWordChar_of_isWord hy) hr']
  rw [htake] at h
  exact ⟨String.toList_inj.1 htake, List.append_cancel_left h⟩

/-- What is printed of a list of types behind its first type. -/
def moreText : List Ty → List Char
  | [] => []
  | t :: ts => ',' :: ' ' :: (textList (t :: ts)).toList

theorem textList_cons (t : Ty) (ts : List Ty) :
    (textList (t :: ts)).toList = t.text.toList ++ moreText ts := by
  cases ts with
  | nil => simp [textList, moreText]
  | cons u us => simp [textList, moreText]

theorem apart_moreText (ts : List Ty) : Lexer.Apart (moreText ts ++ ')' :: r) := by
  cases ts with
  | nil => exact Lexer.apart_cons (by decide)
  | cons t ts => exact Lexer.apart_cons (by decide)

/-- No type opens with a closing parenthesis. -/
theorem textList_cons_ne {t : Ty} {ts : List Ty} (ht : t.Named) :
    (textList (t :: ts)).toList ++ ')' :: r ≠ ')' :: r' := by
  intro h
  have hread := read_text ht (apart_moreText (r := r) ts)
  rw [textList_cons, List.append_assoc] at h
  rw [h] at hread
  cases hread

theorem textList_of_moreText {as bs : List Ty}
    (h : moreText as ++ ')' :: r = moreText bs ++ ')' :: r') :
    (textList as).toList ++ ')' :: r = (textList bs).toList ++ ')' :: r' := by
  cases as with
  | nil =>
    cases bs with
    | nil => exact h
    | cons b bs => cases h
  | cons a as =>
    cases bs with
    | nil => cases h
    | cons b bs => exact (List.cons.inj (List.cons.inj h).2).2

mutual

/-- **The printed form of a type determines the conflated type**, and where it ends in a longer
text. -/
theorem text_inj : ∀ {a b : Ty} {r r' : List Char}, a.Named → b.Named → Lexer.Apart r →
    Lexer.Apart r' → a.text.toList ++ r = b.text.toList ++ r' → a.conflate = b.conflate ∧ r = r'
  | a, b, r, r', ha, hb, hr, hr', h => by
    have hopening : a.opening = b.opening :=
      Option.some.inj ((read_text ha hr).symm.trans (h ▸ read_text hb hr'))
    cases a with
    | int | bool | void | string | struct =>
      obtain ⟨htext, hconflate⟩ := conflate_of_opening_word hb hopening.symm
      rw [htext] at h
      exact ⟨(conflate_of_opening_word ha rfl).2.trans hconflate.symm, List.append_cancel_left h⟩
    | structDef x =>
      cases b with
      | structDef y =>
        rw [structDef_text, structDef_text] at h
        have hxy : x.toList ++ r = y.toList ++ r' := by simpa using h
        obtain ⟨rfl, rfl⟩ :=
          word_append_inj (Lexer.Produces.wf ha).1 (Lexer.Produces.wf hb).1 hr hr' hxy
        exact ⟨rfl, rfl⟩
      | _ => cases hopening
    | fn params ret =>
      cases b with
      | fn params' ret' =>
        rw [fn_text, fn_text] at h
        obtain ⟨hparams, hret⟩ := textList_inj ha.1 hb.1 (List.cons.inj h).2
        obtain ⟨hret, hrest⟩ := text_inj ha.2 hb.2 hr hr' (List.append_cancel_left hret)
        exact ⟨by rw [conflate, conflate, hparams, hret], hrest⟩
      | _ => cases hopening
    | error =>
      cases b with
      | error => exact ⟨rfl, List.append_cancel_left h⟩
      | _ => cases hopening

theorem textList_inj : ∀ {as bs : List Ty} {r r' : List Char}, AllNamed as → AllNamed bs →
    (textList as).toList ++ ')' :: r = (textList bs).toList ++ ')' :: r' →
    conflateAll as = conflateAll bs ∧ r = r'
  | [], [], _, _, _, _, h => ⟨rfl, (List.cons.inj h).2⟩
  | [], _ :: _, _, _, _, hb, h => absurd h.symm (textList_cons_ne hb.1)
  | _ :: _, [], _, _, ha, _, h => absurd h (textList_cons_ne ha.1)
  | a :: as, b :: bs, r, r', ha, hb, h => by
    rw [textList_cons, textList_cons, List.append_assoc, List.append_assoc] at h
    obtain ⟨hhead, hmore⟩ :=
      text_inj ha.1 hb.1 (apart_moreText as) (apart_moreText bs) h
    obtain ⟨htail, hr⟩ := textList_inj ha.2 hb.2 (textList_of_moreText hmore)
    exact ⟨by rw [conflateAll, conflateAll, hhead, htail], hr⟩

end

end Reading

/-! ## Conflating types -/

mutual

theorem text_conflate : ∀ a : Ty, a.conflate.text = a.text
  | string => rfl
  | fn params ret => by rw [conflate, text, text, textList_conflate params, text_conflate ret]
  | int | bool | void | structDef _ | struct _ | error => rfl

theorem textList_conflate : ∀ as : List Ty, textList (conflateAll as) = textList as
  | [] => rfl
  | [a] => by rw [conflateAll, conflateAll, textList, textList, text_conflate a]
  | a :: b :: bs => by
    have ih : textList (b.conflate :: conflateAll bs) = textList (b :: bs) :=
      textList_conflate (b :: bs)
    simp only [conflateAll, textList, text_conflate a, ih]

end

mutual

theorem conflate_inj : ∀ {a b : Ty}, a.AvoidsString → b.AvoidsString →
    a.conflate = b.conflate → a = b
  | a, b, ha, hb, h => by
    cases a with
    | fn params ret =>
      cases b with
      | fn params' ret' =>
        simp only [conflate, fn.injEq] at h
        rw [conflateAll_inj ha.1 hb.1 h.1, conflate_inj ha.2 hb.2 h.2]
      | _ => cases h
    | string =>
      cases b with
      | string => rfl
      | struct y => exact absurd (struct.inj h).symm hb
      | _ => cases h
    | struct x =>
      cases b with
      | string => exact absurd (struct.inj h) ha
      | struct y => exact h
      | _ => cases h
    | int | bool | void | structDef | error =>
      cases b with
      | int | bool | void | structDef | error => exact h
      | _ => cases h

theorem conflateAll_inj : ∀ {as bs : List Ty}, AllAvoidString as → AllAvoidString bs →
    conflateAll as = conflateAll bs → as = bs
  | [], [], _, _, _ => rfl
  | [], _ :: _, _, _, h => by cases h
  | _ :: _, [], _, _, h => by cases h
  | a :: as, b :: bs, ha, hb, h => by
    simp only [conflateAll, List.cons.injEq] at h
    rw [conflate_inj ha.1 hb.1 h.1, conflateAll_inj ha.2 hb.2 h.2]

end

theorem text_eq_iff {a b : Ty} (ha : a.Named) (hb : b.Named) :
    a.text = b.text ↔ a.conflate = b.conflate := by
  constructor
  · intro h
    have happart : Lexer.Apart [] := by intro c hc; cases hc
    exact (text_inj ha hb happart happart (by rw [h])).1
  · intro h
    rw [← text_conflate a, h, text_conflate]

theorem compatible_eq_true_iff (a b : Ty) :
    a.compatible b = true ↔ a ≠ error ∧ b ≠ error ∧ a.text = b.text := by
  have hne : ∀ t : Ty, t.isError = false ↔ t ≠ error := by
    intro t
    cases t <;> simp [isError]
  simp [compatible, hne, and_assoc]

/-- **Types are compatible if they are the same up to one name.** Of two types, at any depth of
function types, whose structs have names that the lexer makes, `compatible` says that neither is
`error` and that they are the same once every `string` is taken for a struct of that name. Between
types that have no struct of that name, it says that they are the same type. -/
theorem compatible_iff_conflate {a b : Ty} (ha : a.Named) (hb : b.Named) :
    (a.compatible b = true ↔ a ≠ error ∧ b ≠ error ∧ a.conflate = b.conflate) ∧
    (a.AvoidsString → b.AvoidsString →
      (a.compatible b = true ↔ a ≠ error ∧ b ≠ error ∧ a = b)) := by
  have hiff : a.compatible b = true ↔ a ≠ error ∧ b ≠ error ∧ a.conflate = b.conflate := by
    rw [compatible_eq_true_iff, text_eq_iff ha hb]
  refine ⟨hiff, fun hsa hsb => ?_⟩
  have hsame : a.conflate = b.conflate ↔ a = b :=
    ⟨conflate_inj hsa hsb, fun h => congrArg conflate h⟩
  rw [hiff, hsame]

theorem compatible_string_struct :
    let point := struct "P"
    let literals := fn [fn [string] point] int
    let structs := fn [fn [struct "string"] point] int
    let ints := fn [fn [int] point] int
    literals.Named ∧ structs.Named ∧ ints.Named ∧ literals.compatible structs = true ∧
      literals.AvoidsString ∧ ints.AvoidsString ∧ ¬ literals.compatible ints = true := by
  have hP : Lexer.Produces (.ident "P") :=
    Lexer.produces_ident ⟨⟨_, _, rfl, rfl, List.all_eq_true.1 rfl⟩, by decide⟩
  have hstring : Lexer.Produces (.ident "string") :=
    Lexer.produces_ident ⟨⟨_, _, rfl, rfl, List.all_eq_true.1 rfl⟩, by decide⟩
  have hliterals : (fn [fn [string] (struct "P")] int).Named :=
    ⟨⟨⟨⟨trivial, trivial⟩, hP⟩, trivial⟩, trivial⟩
  have hstructs : (fn [fn [struct "string"] (struct "P")] int).Named :=
    ⟨⟨⟨⟨hstring, trivial⟩, hP⟩, trivial⟩, trivial⟩
  have hints : (fn [fn [int] (struct "P")] int).Named :=
    ⟨⟨⟨⟨trivial, trivial⟩, hP⟩, trivial⟩, trivial⟩
  have havoids : ∀ t : Ty, t = string ∨ t = int → (fn [fn [t] (struct "P")] int).AvoidsString := by
    rintro t (rfl | rfl) <;>
      exact ⟨⟨⟨⟨trivial, trivial⟩, show "P" ≠ "string" by decide⟩, trivial⟩, trivial⟩
  have hsame := (compatible_iff_conflate hliterals hstructs).1.2 ⟨by simp, by simp, rfl⟩
  have hdifferent := (compatible_iff_conflate hliterals hints).2
    (havoids _ (.inl rfl)) (havoids _ (.inr rfl))
  refine ⟨hliterals, hstructs, hints, hsame, havoids _ (.inl rfl), havoids _ (.inr rfl), ?_⟩
  intro h
  have heq := (hdifferent.1 h).2.2
  simp at heq

end Ty

end FlatC
