import Chomsky.NormalForm
import Chomsky.Proofs.Validity

/-!
# Repeated rules

Dropping repetitions keeps the first occurrences, in order, and does nothing to rules without
repetitions.
-/

namespace Chomsky

section EraseDups

variable {α : Type} [BEq α]

theorem eraseDups_sublist : (l : List α) → l.eraseDups.Sublist l
  | [] => .slnil
  | a :: l => by
    have h := eraseDups_sublist (l.filter fun b => !b == a)
    rw [List.eraseDups_cons]
    exact (h.trans List.filter_sublist).cons_cons a
termination_by l => l.length
decreasing_by exact Nat.lt_succ_of_le (List.length_filter_le _ l)

variable [LawfulBEq α]

theorem nodup_eraseDups : (l : List α) → l.eraseDups.Nodup
  | [] => .nil
  | a :: l => by
    have h := nodup_eraseDups (l.filter fun b => !b == a)
    rw [List.eraseDups_cons, List.nodup_cons]
    exact ⟨by simp, h⟩
termination_by l => l.length
decreasing_by exact Nat.lt_succ_of_le (List.length_filter_le _ l)

theorem eraseDups_of_nodup {l : List α} (h : l.Nodup) : l.eraseDups = l := by
  have hperm : l.eraseDups.Perm l :=
    (List.perm_ext_iff_of_nodup (nodup_eraseDups l) h).mpr fun _ => List.mem_eraseDups
  exact (eraseDups_sublist l).eq_of_length hperm.length_eq

theorem eraseDups_perm {l l' : List α} (h : l.Perm l') : l.eraseDups.Perm l'.eraseDups := by
  refine (List.perm_ext_iff_of_nodup (nodup_eraseDups l) (nodup_eraseDups l')).mpr fun a => ?_
  rw [List.mem_eraseDups, List.mem_eraseDups, h.mem_iff]

end EraseDups

namespace Grammar

variable {g : Grammar}

theorem Valid.eraseDups (hg : g.Valid) : ({ g with rules := g.rules.eraseDups } : Grammar).Valid :=
  hg.with_rules (fun r hr => hg.left_declared r (List.mem_eraseDups.mp hr))
    fun r hr => hg.right_declared r (List.mem_eraseDups.mp hr)

theorem withoutDuplicates_eq (hg : g.Valid) :
    g.withoutDuplicates = .ok { g with rules := g.rules.eraseDups } := hg.eraseDups.checked

end Grammar

end Chomsky
