/-!
# Iterators

What an iterator gives, call after call.

## The model

An iterator has a state. A call in a state returns an element with the state that the next call finds, or
says that there are no more. Calls are given by a relation, so that one may also fail or go on for ever: it
is then related to nothing. Hence an iterator that yields a list does come to its end.
-/

namespace QueryGraph

variable {σ α : Type} {next : σ → Option (α × σ) → Prop}

/-- Call after call, the iterator gives the elements of the list, and then it is at its end. -/
inductive Yields (next : σ → Option (α × σ) → Prop) : σ → List α → Prop where
  /-- There are no more elements. -/
  | done {s : σ} : next s none → Yields next s []
  /-- An element is given, and others follow. -/
  | more {s s' : σ} {a : α} {as : List α} : next s (some (a, s')) → Yields next s' as → Yields next s (a :: as)

/-- An iterator each of whose calls returns at most one thing yields at most one list. -/
theorem Yields.unique {s : σ} {as bs : List α} (h : Yields next s as) (h' : Yields next s bs)
    (hnext : ∀ s o o', next s o → next s o' → o = o') : as = bs := by
  induction h generalizing bs with
  | done hs =>
    cases h' with
    | done _ => rfl
    | more hs' _ => cases hnext _ _ _ hs hs'
  | more hs _ ih =>
    cases h' with
    | done hs' => cases hnext _ _ _ hs hs'
    | more hs' hrest =>
      cases hnext _ _ _ hs hs'
      rw [ih hrest]

/-- What calls return from one state on is what they return from another on, if the first of them does. -/
theorem Yields.of_next {s s' : σ} {as : List α} (h : ∀ o, next s' o → next s o) (hyields : Yields next s' as) :
    Yields next s as := by
  cases hyields with
  | done hs => exact .done (h _ hs)
  | more hs hrest => exact .more (h _ hs) hrest

end QueryGraph
