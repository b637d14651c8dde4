import Mathlib.Data.List.Nodup
import MiniScheme.Proofs.Trees

/-!
# Numbers of nodes

Numbering hands out every number of an interval exactly once, over all nodes of a tree and all
members of its groups.
-/

namespace MiniScheme.Expr

mutual
/-- The numbers of all nodes and members of a tree. -/
def tags : Expr Nat → List Nat
  | lit _ t => [t]
  | var _ t => [t]
  | cond test yes no t => tags test ++ tags yes ++ tags no ++ [t]
  | lambda _ body t => tags body ++ [t]
  | assign _ value t => tags value ++ [t]
  | app func args t => tags func ++ tagsList args ++ [t]
  | letIn bindings body t => tagsBindings bindings ++ tags body ++ [t]
  | letrec bindings body t => tagsBindings bindings ++ tags body ++ [t]
  | fix members body t => members.map (·.tag) ++ tagsMembers members ++ tags body ++ [t]
  | seq items t => tagsList items ++ [t]
termination_by structural e => e

def tagsList : List (Expr Nat) → List Nat
  | [] => []
  | e :: es => tags e ++ tagsList es
termination_by structural es => es

def tagsBindings : List (Name × Expr Nat) → List Nat
  | [] => []
  | (_, e) :: bs => tags e ++ tagsBindings bs
termination_by structural bs => bs

/-- The numbers in the bodies of the members of a group; their own numbers are not among them. -/
def tagsMembers : List (Member Nat (Expr Nat)) → List Nat
  | [] => []
  | ⟨_, _, _, body⟩ :: ms => tags body ++ tagsMembers ms
termination_by structural ms => ms
end

/-! ### Numbering -/

/-- The list holds each number from `n` up to `m` once and nothing else. -/
structure Covers (ts : List Nat) (n m : Nat) : Prop where
  le : n ≤ m
  count : ∀ t, ts.count t = if n ≤ t ∧ t < m then 1 else 0

theorem Covers.nil (n : Nat) : Covers [] n n :=
  ⟨Nat.le_refl n, fun t => by rw [if_neg (by omega)]; rfl⟩

theorem Covers.single (n : Nat) : Covers [n] n (n + 1) := by
  refine ⟨by omega, fun t => ?_⟩
  by_cases h : n = t
  · subst h
    rw [if_pos (by omega)]
    simp
  · rw [if_neg (by omega)]
    exact List.count_eq_zero.2 (by simpa using Ne.symm h)

theorem Covers.append {ts us : List Nat} {n m k : Nat} (h : Covers ts n m) (h' : Covers us m k) :
    Covers (ts ++ us) n k := by
  have hle := h.le
  have hle' := h'.le
  refine ⟨Nat.le_trans hle hle', fun t => ?_⟩
  rw [List.count_append, h.count, h'.count]
  by_cases h₁ : n ≤ t ∧ t < m
  · rw [if_pos h₁, if_neg (by omega), if_pos (by omega)]
  · rw [if_neg h₁]
    by_cases h₂ : m ≤ t ∧ t < k
    · rw [if_pos h₂, if_pos (by omega)]
    · rw [if_neg h₂, if_neg (by omega)]

theorem Covers.nodup {ts : List Nat} {n m : Nat} (h : Covers ts n m) : ts.Nodup := by
  refine List.nodup_iff_count_le_one.2 fun t => ?_
  rw [h.count]
  split
  · exact Nat.le_refl 1
  · exact Nat.zero_le 1

theorem Covers.mem_iff {ts : List Nat} {n m : Nat} (h : Covers ts n m) (t : Nat) :
    t ∈ ts ↔ n ≤ t ∧ t < m := by
  rw [← List.count_pos_iff, h.count]
  by_cases ht : n ≤ t ∧ t < m
  · rw [if_pos ht]
    exact iff_of_true Nat.one_pos ht
  · rw [if_neg ht]
    exact iff_of_false (Nat.lt_irrefl 0) ht

variable {α : Type}

/-- Numbering the tree from any value on uses the numbers from there up to the next unused one. -/
def Numbered (e : Expr α) : Prop :=
  ∀ n, Covers (tagFrom e n).1.tags n (tagFrom e n).2

theorem numbered_list {es : List (Expr α)} (h : ∀ e ∈ es, Numbered e) (n : Nat) :
    Covers (tagsList (tagListFrom es n).1) n (tagListFrom es n).2 := by
  induction es generalizing n with
  | nil => exact Covers.nil n
  | cons e es ih =>
    obtain ⟨he, hes⟩ := List.forall_mem_cons.1 h
    exact (he n).append (ih hes _)

theorem numbered_bindings {bs : List (Name × Expr α)} (h : ∀ b ∈ bs, Numbered b.2) (n : Nat) :
    Covers (tagsBindings (tagBindingsFrom bs n).1) n (tagBindingsFrom bs n).2 := by
  induction bs generalizing n with
  | nil => exact Covers.nil n
  | cons b bs ih =>
    obtain ⟨hb, hbs⟩ := List.forall_mem_cons.1 h
    exact (hb n).append (ih hbs _)

theorem numbered_members {ms : List (Member α (Expr α))} (h : ∀ m ∈ ms, Numbered m.body)
    (reserved n : Nat) :
    Covers (tagsMembers (tagMembersFrom reserved ms n).1) n (tagMembersFrom reserved ms n).2 := by
  induction ms generalizing reserved n with
  | nil => exact Covers.nil n
  | cons m ms ih =>
    obtain ⟨hm, hms⟩ := List.forall_mem_cons.1 h
    exact (hm n).append (ih hms _ _)

/-- The members of a group take the numbers reserved for them. -/
theorem covers_reserved (ms : List (Member α (Expr α))) (reserved n : Nat) :
    Covers ((tagMembersFrom reserved ms n).1.map (·.tag)) reserved (reserved + ms.length) := by
  induction ms generalizing reserved n with
  | nil => exact Covers.nil reserved
  | cons m ms ih =>
    have hrest := (Covers.single reserved).append (ih (reserved + 1) (tagFrom m.body n).2)
    rw [List.length_cons, Nat.add_comm ms.length 1, ← Nat.add_assoc]
    exact hrest

theorem numbered (e : Expr α) : Numbered e := by
  induction e with
  | lit v t => exact fun n => Covers.single n
  | var x t => exact fun n => Covers.single n
  | cond test yes no t htest hyes hno =>
    exact fun n => (((htest n).append (hyes _)).append (hno _)).append (Covers.single _)
  | lambda params body t hbody => exact fun n => (hbody n).append (Covers.single _)
  | assign x value t hvalue => exact fun n => (hvalue n).append (Covers.single _)
  | app func args t hfunc hargs =>
    exact fun n => ((hfunc n).append (numbered_list hargs _)).append (Covers.single _)
  | letIn bindings body t hbindings hbody =>
    exact fun n => ((numbered_bindings hbindings n).append (hbody _)).append (Covers.single _)
  | letrec bindings body t hbindings hbody =>
    exact fun n => ((numbered_bindings hbindings n).append (hbody _)).append (Covers.single _)
  | fix members body t hmembers hbody =>
    intro n
    have hprocs := numbered_members hmembers n (n + members.length)
    exact (((covers_reserved members n _).append hprocs).append (hbody _)).append (Covers.single _)
  | seq items t hitems => exact fun n => (numbered_list hitems n).append (Covers.single _)

theorem nodup_tags_tagged (e : Expr α) : e.tagged.tags.Nodup :=
  (numbered e 0).nodup

end MiniScheme.Expr
