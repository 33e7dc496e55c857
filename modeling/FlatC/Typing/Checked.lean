import FlatC.Defect
import FlatC.Ty
import FlatC.Diagnostic.Report

/-!
# Checking steps

A checking step gives a value, and on the way it reports what is wrong and records
the types of expressions. It only ever adds to both, in order. A step that meets
a defect stops there and keeps what came before.
-/

namespace FlatC

/-- The outcome of a checking step. -/
structure Checked (α : Type) where
  result : Except Defect α
  reports : List Report
  types : List (NodeId × Ty)

namespace Checked

variable {α β : Type}

def ok (a : α) : Checked α := ⟨.ok a, [], []⟩

/-- Goes on with `f`, behind what `x` reported and recorded. -/
def andThen (x : Checked α) (f : α → Checked β) : Checked β :=
  match x.result with
  | .error d => ⟨.error d, x.reports, x.types⟩
  | .ok a => ⟨(f a).result, x.reports ++ (f a).reports, x.types ++ (f a).types⟩

instance : Monad Checked where
  pure := ok
  bind := andThen

/-- Stops. -/
def defect (d : Defect) : Checked α := ⟨.error d, [], []⟩

def report (r : Report) : Checked Unit := ⟨.ok (), [r], []⟩

/-- Records the type of an expression. -/
def record (id : NodeId) (ty : Ty) : Checked Unit := ⟨.ok (), [], [(id, ty)]⟩

@[simp] theorem pure_eq (a : α) : (pure a : Checked α) = ⟨.ok a, [], []⟩ := rfl

@[simp] theorem bind_eq (x : Checked α) (f : α → Checked β) : x >>= f = x.andThen f := rfl

@[simp] theorem andThen_ok {a : α} {rs : List Report} {ts : List (NodeId × Ty)}
    {f : α → Checked β} :
    andThen ⟨.ok a, rs, ts⟩ f = ⟨(f a).result, rs ++ (f a).reports, ts ++ (f a).types⟩ := rfl

@[simp] theorem andThen_error {d : Defect} {rs : List Report} {ts : List (NodeId × Ty)}
    {f : α → Checked β} : andThen ⟨.error d, rs, ts⟩ f = ⟨.error d, rs, ts⟩ := rfl

end Checked

end FlatC
