import FlatC.Session
import FlatC.Proofs.Binding.Steps
import FlatC.Proofs.Spans.Parser
import FlatC.Proofs.Spans.Tokens
import FlatC.Proofs.Typing.Reports

/-!
# Which stage an error belongs to

The code of an error names a category, and each stage keeps to its own: the lexer to `lexical`,
the parser to `grammar`, binding to `name` and checking to `type`. Of binding and checking this holds
of every input, also of trees and notes that no text leads to.
-/

namespace FlatC

/-- The category of an error. A warning has none. -/
def Report.category? : Report → Option Category
  | .problem p => some p.code.category
  | .program code _ => some code.category
  | .warning _ => none

theorem Report.isError_iff {r : Report} : r.isError = true ↔ ∃ c, r.category? = some c := by
  cases r <;> simp [isError, category?]

theorem Report.isError_of_category {r : Report} {c : Category} (h : r.category? = some c) :
    r.isError = true :=
  isError_iff.2 ⟨c, h⟩

/-! ## Reading -/

theorem tokenize_lexical {source : String} {e : Problem} (h : tokenize source = .error e) :
    e.code.category = .lexical :=
  (tokenize_blames h).1

theorem parse_grammar {source : String} {ts : Lexer.Tokens} {e : Problem}
    (hlex : tokenize source = .ok ts) (h : parse ts.lexemes = .error e) :
    e.code.category = .grammar :=
  (parse_blames (tokenize_lexemes hlex).1 h).1

/-! ## Binding -/

theorem NameFault.category (f : NameFault) : f.code.category = .name := by
  cases f <;> rfl

theorem bindNames_names {p : Program} {a b : Annotations} {rs : List Report}
    (h : bindNames p a = .ok (b, rs)) : ∀ r ∈ rs, r.category? = some .name := by
  refine bindNames_preserves (I := fun s => ∀ r ∈ s.reports, r.category? = some .name)
    ⟨fun f span hs r hr => ?_, fun _ _ hs => hs, fun _ hs => hs, fun _ _ _ hs => hs⟩ h (by simp)
  rcases List.mem_append.1 hr with hr | hr
  · exact hs r hr
  · obtain rfl := List.mem_singleton.1 hr
    exact congrArg some f.category

/-! ## Checking -/

theorem TypeFault.category (f : TypeFault) : f.code.category = .type := by
  cases f <;> rfl

theorem TypeFault.Reported.category {P : Span → Prop} {r : Report} (h : Reported P r) :
    r.category? = some .type := by
  cases h with
  | here f => exact congrArg some f.category
  | missingReturnValue | noMain => rfl

theorem checkTypes_types (p : Program) (a : Annotations) :
    ∀ r ∈ (checkTypes p a).2.2, r.category? = some .type := fun r hr =>
  (checkTypes_reports (fun o _ => .of_forall (fun _ => trivial) o) a r hr).category

end FlatC
