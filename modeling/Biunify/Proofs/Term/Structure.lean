import Biunify.Term.Basic

/-! Terms by their structure: induction over the parts of a term, and the chains of selections and
of calls that a term can begin with. -/

namespace Biunify
namespace Term

@[elab_as_elim, induction_eliminator]
theorem structural {motive : Term → Prop} (literal : ∀ value, motive (literal value))
    (var : ∀ name, motive (var name))
    (lambda : ∀ param body, motive body → motive (lambda param body))
    (apply : ∀ fn arg, motive fn → motive arg → motive (apply fn arg))
    (record : ∀ fields, (∀ f ∈ fields, motive f.2) → motive (record fields))
    (select : ∀ receiver field, motive receiver → motive (select receiver field))
    (tuple : ∀ elems, (∀ t ∈ elems, motive t) → motive (tuple elems))
    (letIn : ∀ name recursive rhs body, motive rhs → motive body →
      motive (letIn name recursive rhs body)) : ∀ term, motive term
  | .literal value => literal value
  | .var name => var name
  | .lambda param body =>
    lambda param body (structural literal var lambda apply record select tuple letIn body)
  | .apply fn arg =>
    apply fn arg (structural literal var lambda apply record select tuple letIn fn)
      (structural literal var lambda apply record select tuple letIn arg)
  | .record fields =>
    record fields fun f _ => structural literal var lambda apply record select tuple letIn f.2
  | .select receiver field =>
    select receiver field
      (structural literal var lambda apply record select tuple letIn receiver)
  | .tuple elems =>
    tuple elems fun t _ => structural literal var lambda apply record select tuple letIn t
  | .letIn name recursive rhs body =>
    letIn name recursive rhs body
      (structural literal var lambda apply record select tuple letIn rhs)
      (structural literal var lambda apply record select tuple letIn body)
termination_by term => sizeOf term
decreasing_by
  · rw [Term.lambda.sizeOf_spec]
    omega
  · rw [Term.apply.sizeOf_spec]
    omega
  · rw [Term.apply.sizeOf_spec]
    omega
  · have := List.sizeOf_lt_of_mem ‹_›
    rcases f with ⟨name, t⟩
    rw [Prod.mk.sizeOf_spec] at this
    rw [Term.record.sizeOf_spec]
    show sizeOf t < 1 + sizeOf fields
    omega
  · rw [Term.select.sizeOf_spec]
    omega
  · have := List.sizeOf_lt_of_mem ‹_›
    rw [Term.tuple.sizeOf_spec]
    omega
  · rw [Term.letIn.sizeOf_spec]
    omega
  · rw [Term.letIn.sizeOf_spec]
    omega

section Chains

def receiver : Term → Term
  | select t _ => receiver t
  | t => t

def path : Term → List String
  | select t field => path t ++ [field]
  | _ => []

theorem foldl_select (t : Term) : t.path.foldl select t.receiver = t := by
  induction t with
  | select t field ih => rw [path, receiver, List.foldl_append, ih, List.foldl_cons, List.foldl_nil]
  | _ => rfl

theorem receiver_ne_select (t : Term) : ∀ u field, t.receiver ≠ select u field := by
  induction t with
  | select t field ih => exact ih
  | _ => simp [receiver]

def callee : Term → Term
  | apply fn _ => callee fn
  | t => t

def args : Term → List Term
  | apply fn arg => args fn ++ [arg]
  | _ => []

theorem applyTo_args (t : Term) : t.callee.applyTo t.args = t := by
  induction t with
  | apply fn arg ih _ =>
    rw [applyTo] at ih
    rw [applyTo, args, callee, List.foldl_append, ih, List.foldl_cons, List.foldl_nil]
  | _ => rfl

end Chains

end Term
end Biunify
