import Chomsky.Outline.Phases

/-!
# Transformations

The phases of normalization and normalization itself are operations in their own right and may be
applied in any order. Several operations may share one allocator; what a failed one did to it stays
done.
-/

namespace Chomsky

inductive Transformation where
  /-- Removes epsilon rules; the nullable symbols are computed unless they are given. -/
  | removeEpsilon (nullable : Option (List (Item LooseSymbol))) (options : EpsilonOptions)
      (shared : Bool)
  | removeUnary
  | removeNonproductive
  | removeInaccessible
  | removeUseless
  | binarize (shared : Bool)
  | removeDuplicates
  | normalize (config : Config)
deriving DecidableEq, Repr

/-- An operation with the shared allocator, or with one of its own that is forgotten afterwards. -/
def withAllocator {α : Type} (shared : Bool) (a : Allocator) (run : Allocator → Allocator × α) :
    Allocator × α :=
  if shared then run a else (a, (run .standard).2)

def Transformation.apply (t : Transformation) (o : Outline) (a : Allocator) :
    Allocator × Report Outline.Fault Grammar :=
  match t with
  | removeEpsilon nullable options shared =>
    withAllocator shared a (o.removeEpsilon nullable options)
  | removeUnary => (a, o.removeUnary)
  | removeNonproductive => (a, o.removeNonproductive)
  | removeInaccessible => (a, o.removeInaccessible)
  | removeUseless => (a, o.removeUseless)
  | binarize shared => withAllocator shared a o.binarize
  | removeDuplicates => (a, o.removeDuplicates)
  | normalize config => (a, o.normalize config)

end Chomsky
