import Mathlib.Data.Set.Insert

/-!
# Interrupt gateways

A gateway keeps the sources that request service and those that are being served. A source that requests
service and is not being served can be claimed; it is then served until it is completed.

* `Gateway.Step`, `Gateway.Run` : the events of a gateway, and sequences of them;
* `Gateway.Run.served`, `Gateway.Run.claim_ne` : a source is not claimed twice before it is completed;
* `Gateway.Run.claimable` : no request is lost.
-/

/-- The sources that request service, and those that are being served. -/
@[ext] structure Gateway (ι : Type) where
  pending : Set ι
  served : Set ι

namespace Gateway

variable {ι : Type}

def claimable (g : Gateway ι) : Set ι := g.pending \ g.served

inductive Event (ι : Type) where
  | request (i : ι)
  | withdraw (i : ι)
  | claim (r : Option ι)
  | complete (i : ι)
  | idle

inductive Step : Gateway ι → Event ι → Gateway ι → Prop
  | request (g : Gateway ι) (i : ι) : Step g (.request i) { g with pending := insert i g.pending }
  | withdraw (g : Gateway ι) (i : ι) : Step g (.withdraw i) { g with pending := g.pending \ {i} }
  | claim (g : Gateway ι) {i : ι} (hi : i ∈ g.claimable) :
    Step g (.claim (some i)) { g with served := insert i g.served }
  | claimNone (g : Gateway ι) (hg : g.claimable = ∅) : Step g (.claim none) g
  | complete (g : Gateway ι) (i : ι) : Step g (.complete i) { g with served := g.served \ {i} }
  | idle (g : Gateway ι) : Step g .idle g

inductive Run : Gateway ι → List (Event ι) → Gateway ι → Prop
  | nil (g : Gateway ι) : Run g [] g
  | cons {g g' g'' : Gateway ι} {e : Event ι} {es : List (Event ι)} (hstep : Step g e g')
    (hrun : Run g' es g'') : Run g (e :: es) g''

variable {g g' : Gateway ι} {e : Event ι} {es : List (Event ι)} {i : ι}

/-! ## Claimed once -/

theorem Step.served (h : Step g e g') (hi : i ∈ g.served) (he : e ≠ .complete i) : i ∈ g'.served := by
  cases h with
  | request | withdraw | claimNone | idle => exact hi
  | claim => exact Set.mem_insert_of_mem _ hi
  | complete j =>
    refine ⟨hi, ?_⟩
    rintro rfl
    exact he rfl

theorem Run.served (h : Run g es g') (hi : i ∈ g.served) (hes : .complete i ∉ es) : i ∈ g'.served := by
  induction h with
  | nil => exact hi
  | cons hstep _ ih =>
    rw [List.mem_cons, not_or] at hes
    exact ih (hstep.served hi (Ne.symm hes.1)) hes.2

/-- A source that is being served is not claimed until it is completed. -/
theorem Run.claim_ne {g'' : Gateway ι} {j : ι} (h : Run g es g') (hi : i ∈ g.served)
    (hes : .complete i ∉ es) (hclaim : Step g' (.claim (some j)) g'') : j ≠ i := by
  cases hclaim with
  | claim hj =>
    rintro rfl
    exact hj.2 (h.served hi hes)

theorem Step.served_of_claim (h : Step g (.claim (some i)) g') : i ∈ g'.served := by
  cases h with
  | claim => exact Set.mem_insert _ _

/-! ## Nothing is lost -/

theorem Step.pending_of_request (h : Step g (.request i) g') : i ∈ g'.pending := by
  cases h with
  | request => exact Set.mem_insert _ _

theorem Step.pending (h : Step g e g') (hi : i ∈ g.pending) (he : e ≠ .withdraw i) : i ∈ g'.pending := by
  cases h with
  | request => exact Set.mem_insert_of_mem _ hi
  | withdraw j =>
    refine ⟨hi, ?_⟩
    rintro rfl
    exact he rfl
  | claim | claimNone | complete | idle => exact hi

theorem Run.pending (h : Run g es g') (hi : i ∈ g.pending) (hes : .withdraw i ∉ es) : i ∈ g'.pending := by
  induction h with
  | nil => exact hi
  | cons hstep _ ih =>
    rw [List.mem_cons, not_or] at hes
    exact ih (hstep.pending hi (Ne.symm hes.1)) hes.2

theorem Step.claimable (h : Step g e g') (hi : i ∈ g.claimable) (hw : e ≠ .withdraw i)
    (hc : e ≠ .claim (some i)) : i ∈ g'.claimable := by
  refine ⟨h.pending hi.1 hw, fun hserved => ?_⟩
  cases h with
  | request | withdraw | claimNone | idle => exact hi.2 hserved
  | claim =>
    rcases hserved with rfl | hserved
    · exact hc rfl
    · exact hi.2 hserved
  | complete => exact hi.2 hserved.1

/-- A source that can be claimed stays so until it is claimed or withdrawn. -/
theorem Run.claimable (h : Run g es g') (hi : i ∈ g.claimable) (hw : .withdraw i ∉ es)
    (hc : .claim (some i) ∉ es) : i ∈ g'.claimable := by
  induction h with
  | nil => exact hi
  | cons hstep _ ih =>
    rw [List.mem_cons, not_or] at hw hc
    exact ih (hstep.claimable hi (Ne.symm hw.1) (Ne.symm hc.1)) hw.2 hc.2

/-- A source that still requests service can be claimed again once it is completed. -/
theorem Step.claimable_of_complete (h : Step g (.complete i) g') (hi : i ∈ g.pending) : i ∈ g'.claimable := by
  cases h with
  | complete => exact ⟨hi, fun hserved => hserved.2 rfl⟩

end Gateway
