import Mathlib.Data.List.Nodup
import Mathlib.Data.List.Perm.Basic
import HangAnalyzer.Lib.Runs

/-!
# `HangAnalyzer.Lib.Ownership`: resources that are acquired, used and released

A log is a list of operations on resources. `Ledger.step` is the discipline that an owner
keeps: it acquires what it never had before, and it uses and releases only what it holds.

`released_once` is what the discipline is for. In a log that keeps it, what is released was
acquired before and is not touched afterwards. `held_perm` is the balance: what was
acquired is held or released.
-/

set_option autoImplicit false

namespace HangAnalyzer.Lib

variable {ρ : Type}

/-- An operation on a resource. -/
inductive ResourceOp (ρ : Type) where
  | acquire (r : ρ)
  | use (r : ρ)
  | release (r : ρ)

namespace ResourceOp

/-- The resource of an operation. -/
def resource : ResourceOp ρ → ρ
  | acquire r | use r | release r => r

/-- The resource that an operation acquires. -/
def acquired? : ResourceOp ρ → Option ρ
  | acquire r => some r
  | _         => none

/-- The resource that an operation releases. -/
def released? : ResourceOp ρ → Option ρ
  | release r => some r
  | _         => none

end ResourceOp

/-- The resources that are held, and those that were released, in order. -/
structure Ledger (ρ : Type) where
  held : List ρ
  released : List ρ

namespace Ledger

/-- Nothing was acquired yet. -/
def empty : Ledger ρ := ⟨[], []⟩

/-- No resource is listed twice. -/
def Once (l : Ledger ρ) : Prop := (l.held ++ l.released).Nodup

/-- Nothing has been acquired. -/
theorem once_empty : (empty : Ledger ρ).Once := List.nodup_nil

section
variable [DecidableEq ρ]

/-- The ledger after an operation that keeps the discipline. -/
def step (l : Ledger ρ) : ResourceOp ρ → Option (Ledger ρ)
  | .acquire r => if r ∈ l.held ++ l.released then none else some { l with held := l.held ++ [r] }
  | .use r     => if r ∈ l.held then some l else none
  | .release r =>
      if r ∈ l.held then some ⟨l.held.erase r, l.released ++ [r]⟩ else none

variable {l l' : Ledger ρ} {op : ResourceOp ρ} {ops : List (ResourceOp ρ)} {r : ρ}

/-! ### One operation -/

/-- Only a new resource can be acquired. -/
theorem step_acquire :
    l.step (.acquire r) = some l' ↔
      r ∉ l.held ++ l.released ∧ ⟨l.held ++ [r], l.released⟩ = l' := by
  rw [step]
  split
  · rename_i hmem
    exact iff_of_false nofun fun h => h.1 hmem
  · rename_i hnew
    exact Option.some_inj.trans (and_iff_right hnew).symm

/-- Only a resource that is held can be used. -/
theorem step_use : l.step (.use r) = some l' ↔ r ∈ l.held ∧ l = l' := by
  rw [step]
  split
  · rename_i hmem
    exact Option.some_inj.trans (and_iff_right hmem).symm
  · rename_i hnot
    exact iff_of_false nofun fun h => hnot h.1

/-- Only a resource that is held can be released. -/
theorem step_release :
    l.step (.release r) = some l' ↔
      r ∈ l.held ∧ ⟨l.held.erase r, l.released ++ [r]⟩ = l' := by
  rw [step]
  split
  · rename_i hmem
    exact Option.some_inj.trans (and_iff_right hmem).symm
  · rename_i hnot
    exact iff_of_false nofun fun h => hnot h.1

/-- What is held or released after an operation is what was, and what it acquires. -/
theorem step_perm (h : l.step op = some l') :
    (l'.held ++ l'.released).Perm (l.held ++ l.released ++ op.acquired?.toList) := by
  cases op with
  | acquire r =>
      obtain ⟨-, rfl⟩ := step_acquire.mp h
      show (l.held ++ [r] ++ l.released).Perm (l.held ++ l.released ++ [r])
      rw [List.append_assoc, List.append_assoc]
      exact List.perm_append_comm.append_left l.held
  | use r =>
      obtain ⟨-, rfl⟩ := step_use.mp h
      show (l.held ++ l.released).Perm (l.held ++ l.released ++ [])
      rw [List.append_nil]
  | release r =>
      obtain ⟨hmem, rfl⟩ := step_release.mp h
      show (l.held.erase r ++ (l.released ++ [r])).Perm (l.held ++ l.released ++ [])
      have hcons : (r :: l.held.erase r).Perm l.held := (List.perm_cons_erase hmem).symm
      rw [List.append_nil, ← List.append_assoc]
      exact (List.perm_append_singleton r _).trans (hcons.append_right l.released)

/-- No operation acquires or releases a resource a second time. -/
theorem Once.step (hl : l.Once) (h : l.step op = some l') : l'.Once := by
  refine (step_perm h).nodup_iff.mpr ?_
  cases op with
  | acquire r =>
      obtain ⟨hnew, -⟩ := step_acquire.mp h
      exact List.nodup_append.mpr ⟨hl, List.nodup_singleton r, by
        intro x hx y hy heq
        exact hnew (List.mem_singleton.mp hy ▸ heq ▸ hx)⟩
  | use | release =>
      show (l.held ++ l.released ++ []).Nodup
      rw [List.append_nil]
      exact hl

/-- What was released stays so. -/
theorem step_released (h : l.step op = some l') :
    l'.released = l.released ++ op.released?.toList := by
  cases op with
  | acquire r =>
      obtain ⟨-, rfl⟩ := step_acquire.mp h
      exact (List.append_nil _).symm
  | use r =>
      obtain ⟨-, rfl⟩ := step_use.mp h
      exact (List.append_nil _).symm
  | release r =>
      obtain ⟨-, rfl⟩ := step_release.mp h
      rfl

/-- What was released is not touched. -/
theorem step_untouched (hl : l.Once) (hr : r ∈ l.released) (h : l.step op = some l') :
    op.resource ≠ r := by
  have hheld : r ∉ l.held := fun hmem => (List.nodup_append.mp hl).2.2 r hmem r hr rfl
  rintro rfl
  cases op with
  | acquire r => exact (step_acquire.mp h).1 (List.mem_append_right _ hr)
  | use r => exact hheld (step_use.mp h).1
  | release r => exact hheld (step_release.mp h).1

/-! ### A log -/

/-- In a run every resource is acquired and released at most once. -/
theorem Once.run (hl : l.Once) (h : Run Ledger.step l ops l') : l'.Once :=
  Run.invariant Once (fun _ _ _ hs hstep => hs.step hstep) h hl

/-- **The balance.** What is held or released after a log is what was, and what the log
acquires. -/
theorem held_perm (h : Run step l ops l') :
    (l'.held ++ l'.released).Perm
      (l.held ++ l.released ++ ops.filterMap ResourceOp.acquired?) := by
  induction ops generalizing l with
  | nil =>
      obtain rfl := Run.nil_iff.mp h
      rw [List.filterMap_nil, List.append_nil]
  | cons op ops ih =>
      obtain ⟨t, ht, hrest⟩ := Run.cons_iff.mp h
      have hcons : (op :: ops).filterMap ResourceOp.acquired?
          = op.acquired?.toList ++ ops.filterMap ResourceOp.acquired? := by
        cases hop : op.acquired? <;> simp [hop]
      rw [hcons, ← List.append_assoc]
      exact (ih hrest).trans ((step_perm ht).append_right _)

/-- The log says in which order the resources were released. -/
theorem released_eq (h : Run step l ops l') :
    l'.released = l.released ++ ops.filterMap ResourceOp.released? := by
  induction ops generalizing l with
  | nil =>
      obtain rfl := Run.nil_iff.mp h
      exact (List.append_nil _).symm
  | cons op ops ih =>
      obtain ⟨t, ht, hrest⟩ := Run.cons_iff.mp h
      rw [ih hrest, step_released ht, List.append_assoc]
      cases hop : op.released? <;> simp [hop]

/-- What was released is not touched by the rest of the log. -/
theorem run_untouched (hl : l.Once) (hr : r ∈ l.released) (h : Run step l ops l') :
    ∀ op ∈ ops, op.resource ≠ r := by
  induction ops generalizing l with
  | nil =>
      intro op hop
      cases hop
  | cons op ops ih =>
      obtain ⟨t, ht, hrest⟩ := Run.cons_iff.mp h
      have hr' : r ∈ t.released := by
        rw [step_released ht]
        exact List.mem_append_left _ hr
      intro op' hop'
      rcases List.mem_cons.mp hop' with rfl | hmem
      · exact step_untouched hl hr ht
      · exact ih (hl.step ht) hr' hrest op' hmem

/-- **What is released was acquired before, and is not touched afterwards.** -/
theorem released_once {pre post : List (ResourceOp ρ)}
    (h : Run step empty (pre ++ .release r :: post) l) :
    .acquire r ∈ pre ∧ ∀ op ∈ post, op.resource ≠ r := by
  obtain ⟨t, hpre, hrest⟩ := Run.append_iff.mp h
  obtain ⟨u, hrelease, hpost⟩ := Run.cons_iff.mp hrest
  have honce : t.Once := once_empty.run hpre
  constructor
  · obtain ⟨hheld, -⟩ := step_release.mp hrelease
    have hmem := (held_perm hpre).mem_iff.mp (List.mem_append_left _ hheld)
    obtain ⟨op, hop, hacquired⟩ := List.mem_filterMap.mp hmem
    cases op with
    | acquire r' =>
        obtain rfl := Option.some.inj hacquired
        exact hop
    | use | release => cases hacquired
  · refine run_untouched (honce.step hrelease) ?_ hpost
    rw [step_released hrelease]
    exact List.mem_append_right _ (List.mem_singleton_self r)

/-! ### Many resources -/

variable {keep rs gone : List ρ}

/-- New resources are acquired one after the other. -/
theorem acquire_all (h : (keep ++ gone ++ rs).Nodup) :
    Run step ⟨keep, gone⟩ (rs.map .acquire) ⟨keep ++ rs, gone⟩ := by
  induction rs generalizing keep with
  | nil => exact Run.nil_iff.mpr (by rw [List.append_nil])
  | cons r rs ih =>
      have hnew : r ∉ keep ++ gone := by
        intro hr
        exact (List.nodup_append.mp h).2.2 r hr r List.mem_cons_self rfl
      have hperm : (keep ++ gone ++ r :: rs).Perm (keep ++ [r] ++ gone ++ rs) := by
        rw [List.append_assoc, List.append_assoc, List.append_assoc, List.singleton_append]
        exact List.perm_middle.append_left keep
      refine Run.cons_iff.mpr ⟨⟨keep ++ [r], gone⟩, step_acquire.mpr ⟨hnew, rfl⟩, ?_⟩
      rw [show keep ++ r :: rs = keep ++ [r] ++ rs by rw [List.append_assoc]; rfl]
      exact ih (hperm.nodup_iff.mp h)

/-- Resources that are held can be used. -/
theorem use_all (h : ∀ r ∈ rs, r ∈ l.held) : Run step l (rs.map .use) l := by
  induction rs with
  | nil => exact Run.nil_iff.mpr rfl
  | cons r rs ih =>
      have hstep := step_use.mpr ⟨h r List.mem_cons_self, rfl⟩
      refine Run.cons_iff.mpr ⟨l, hstep, ih fun r' hr' => ?_⟩
      exact h r' (List.mem_cons_of_mem _ hr')

/-- Resources that are held are released one after the other. -/
theorem release_all (h : (keep ++ rs).Nodup) :
    Run step ⟨keep ++ rs, gone⟩ (rs.map .release) ⟨keep, gone ++ rs⟩ := by
  induction rs generalizing gone with
  | nil => exact Run.nil_iff.mpr (by rw [List.append_nil, List.append_nil])
  | cons r rs ih =>
      have hkeep : r ∉ keep := fun hr =>
        (List.nodup_append.mp h).2.2 r hr r List.mem_cons_self rfl
      have herase : (keep ++ r :: rs).erase r = keep ++ rs := by
        rw [List.erase_append_right _ hkeep, List.erase_cons_head]
      have hrest : (keep ++ rs).Nodup := herase ▸ h.erase r
      refine Run.cons_iff.mpr ⟨⟨keep ++ rs, gone ++ [r]⟩, ?_, ?_⟩
      · exact step_release.mpr ⟨List.mem_append_right _ List.mem_cons_self, by rw [herase]⟩
      · rw [show gone ++ r :: rs = gone ++ [r] ++ rs by rw [List.append_assoc]; rfl]
        exact ih hrest

end

end Ledger

end HangAnalyzer.Lib
