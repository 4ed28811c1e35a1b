import Libk2.Foundation.StepSystem
import Libk2.Timing.Calendar

/-!
# Calendars that threads share

Any number of threads ask any number of calendars for their parts, one access to memory after
another. `gmtime` has one result for all calendars, `tm`; `gmtime_lock` is held until `validate` has
copied it. A calendar itself has no lock: threads validate the same calendar at the same time, and
one may read it that has seen `m_validated` set by another.

Since they all copy the same parts, this does no harm to what is copied before `m_validated` is set.
But `m_msec_of_sec` is set after it. A thread in between gets what the field held when the calendar
was constructed (`shared_calendars`).
-/

namespace Libk2

open StepSystem UtcCalendar

/-! ### What `validate` writes -/

namespace UtcCalendar

/-- The fields that are copied from the result of `gmtime`, in the order of `validate`. -/
def copied : List Accessor :=
  [.year, .monthOfYear, .dayOfMonth, .hourOfDay, .minOfHour, .secOfMin, .dayOfYear, .dayOfWeek]

/-- One field is copied. -/
def copyField (tm : Tm) (c : UtcCalendar) : Accessor → UtcCalendar
  | .year => { c with year := UInt16.ofNat (tm.year + 1970) }
  | .monthOfYear => { c with monthOfYear := UInt16.ofNat tm.mon }
  | .dayOfMonth => { c with dayOfMonth := UInt16.ofNat (tm.mday - 1) }
  | .hourOfDay => { c with hourOfDay := UInt16.ofNat tm.hour }
  | .minOfHour => { c with minOfHour := UInt16.ofNat tm.min }
  | .secOfMin => { c with secOfMin := UInt16.ofNat tm.sec }
  | .msecOfSec => c
  | .dayOfYear => { c with dayOfYear := UInt16.ofNat tm.yday }
  | .dayOfWeek => { c with dayOfWeek := UInt16.ofNat tm.wday }

/-- `m_validated = true`. -/
def setValidated (c : UtcCalendar) : UtcCalendar := { c with validated := true }

/-- `m_msec_of_sec = m_timestamp.msec_of_sec()`. -/
def setMsec (c : UtcCalendar) : UtcCalendar :=
  { c with msecOfSec := c.timestamp.msecOfSec.toUInt32 }

variable {c : UtcCalendar} {tm : Tm} {f g : Accessor}

/-- These are the writes of `validate`. -/
theorem validate_eq_writes (h : c.validated = false) :
    c.validate =
      (copied.foldl (copyField (gmtime c.timestamp.inSec.toNat)) c).setValidated.setMsec := by
  rw [validate, if_pos h]
  simp only [copied, List.foldl_cons, List.foldl_nil, copyField, setValidated, setMsec]

theorem timestamp_copyField : (copyField tm c f).timestamp = c.timestamp := by
  cases f <;> simp only [copyField]

theorem validated_copyField : (copyField tm c f).validated = c.validated := by
  cases f <;> simp only [copyField]

/-- **Frame.** -/
theorem field_copyField_of_ne (h : g ≠ f) : (copyField tm c f).field g = c.field g := by
  cases f <;> cases g <;> first | exact absurd rfl h | simp only [copyField, field]

theorem field_setMsec_of_ne (h : g ≠ .msecOfSec) : c.setMsec.field g = c.field g := by
  cases g <;> first | rfl | exact absurd rfl h

/-- A copied field has what `validate` gives it. -/
theorem field_copyField {c' : UtcCalendar} (h : c.validated = false) (hf : f ∈ copied) :
    (copyField (gmtime c.timestamp.inSec.toNat) c' f).field f = c.validate.field f := by
  rw [validate, if_pos h]
  cases f <;> first | exact absurd hf (by decide) | simp only [copyField, field]

theorem field_setMsec {c' : UtcCalendar} (h : c.validated = false)
    (htimestamp : c'.timestamp = c.timestamp) :
    c'.setMsec.field .msecOfSec = c.validate.field .msecOfSec := by
  rw [validate, if_pos h, setMsec, htimestamp]
  rfl

theorem mem_copied (h : f ≠ .msecOfSec) : f ∈ copied := by
  cases f <;> first | decide | exact absurd rfl h

end UtcCalendar

/-! ### The threads -/

/-- Where a thread is in its call of an accessor. -/
inductive CalendarPc (ι : Type*) where
  | idle
  | atTest (i : ι) (a : Accessor)
  | atLock (i : ι) (a : Accessor)
  | atGmtime (i : ι) (a : Accessor)
  | atCopy (i : ι) (a : Accessor) (left : List Accessor)
  | atSetValidated (i : ι) (a : Accessor)
  | atSetMsec (i : ι) (a : Accessor)
  | atRead (i : ι) (a : Accessor)
  | done (i : ι) (a : Accessor) (r : UInt16)
deriving DecidableEq

/-- It has `gmtime_lock`. -/
def CalendarPc.Critical {ι : Type*} : CalendarPc ι → Prop
  | .atGmtime _ _ | .atCopy _ _ _ => True
  | _ => False

/-- The result of `gmtime`, who has `gmtime_lock`, the calendars, and the threads. -/
structure CalendarSys (τ ι : Type*) where
  tm : Tm
  holder : Option τ
  cal : ι → UtcCalendar
  pc : τ → CalendarPc ι

/-- A thread calls an accessor, goes on, or returns. -/
inductive CalendarLabel (τ ι : Type*) where
  | call (t : τ) (i : ι) (a : Accessor)
  | next (t : τ)
  | ret (t : τ)
deriving DecidableEq

namespace CalendarSys

variable {τ ι : Type*} [DecidableEq τ] [DecidableEq ι]

/-- Nobody has called yet. -/
def start (tm : Tm) (init : ι → UtcCalendar) : CalendarSys τ ι :=
  ⟨tm, none, init, fun _ ↦ .idle⟩

variable (s : CalendarSys τ ι)

def goto (t : τ) (pc : CalendarPc ι) : CalendarSys τ ι :=
  { s with pc := Function.update s.pc t pc }

/-- A calendar is written, and the thread goes on. -/
def write (i : ι) (c : UtcCalendar) (t : τ) (pc : CalendarPc ι) : CalendarSys τ ι :=
  { s with cal := Function.update s.cal i c, pc := Function.update s.pc t pc }

/-- One access of a thread: the accessor, with `validate`. -/
def next (t : τ) : Option (CalendarSys τ ι) :=
  match s.pc t with
  | .atTest i a =>
    some (s.goto t (if (s.cal i).validated = false then .atLock i a else .atRead i a))
  | .atLock i a =>
    if s.holder = none then some { s.goto t (.atGmtime i a) with holder := some t } else none
  | .atGmtime i a =>
    some { s.goto t (.atCopy i a copied) with tm := gmtime (s.cal i).timestamp.inSec.toNat }
  | .atCopy i a (f :: left) => some (s.write i (copyField s.tm (s.cal i) f) t (.atCopy i a left))
  | .atCopy i a [] => some { s.goto t (.atSetValidated i a) with holder := none }
  | .atSetValidated i a => some (s.write i (s.cal i).setValidated t (.atSetMsec i a))
  | .atSetMsec i a => some (s.write i (s.cal i).setMsec t (.atRead i a))
  | .atRead i a => some (s.goto t (.done i a ((s.cal i).field a)))
  | .idle | .done _ _ _ => none

/-- One step. -/
def step (s : CalendarSys τ ι) : CalendarLabel τ ι → Option (CalendarSys τ ι)
  | .call t i a =>
    match s.pc t with
    | .idle => some (s.goto t (.atTest i a))
    | _ => none
  | .next t => s.next t
  | .ret t =>
    match s.pc t with
    | .done _ _ _ => some (s.goto t .idle)
    | _ => none

/-- What an access can do. -/
inductive Moves (s : CalendarSys τ ι) (t : τ) : CalendarSys τ ι → Prop
  | valid {i : ι} {a : Accessor} (hpc : s.pc t = .atTest i a)
      (hvalid : (s.cal i).validated = true) : Moves s t (s.goto t (.atRead i a))
  | invalid {i : ι} {a : Accessor} (hpc : s.pc t = .atTest i a) : Moves s t (s.goto t (.atLock i a))
  | lock {i : ι} {a : Accessor} (hpc : s.pc t = .atLock i a) (hfree : s.holder = none) :
    Moves s t { s.goto t (.atGmtime i a) with holder := some t }
  | gmtime {i : ι} {a : Accessor} (hpc : s.pc t = .atGmtime i a) :
    Moves s t
      { s.goto t (.atCopy i a copied) with tm := gmtime (s.cal i).timestamp.inSec.toNat }
  | copy {i : ι} {a f : Accessor} {left : List Accessor} (hpc : s.pc t = .atCopy i a (f :: left)) :
    Moves s t (s.write i (copyField s.tm (s.cal i) f) t (.atCopy i a left))
  | unlock {i : ι} {a : Accessor} (hpc : s.pc t = .atCopy i a []) :
    Moves s t { s.goto t (.atSetValidated i a) with holder := none }
  | setValidated {i : ι} {a : Accessor} (hpc : s.pc t = .atSetValidated i a) :
    Moves s t (s.write i (s.cal i).setValidated t (.atSetMsec i a))
  | setMsec {i : ι} {a : Accessor} (hpc : s.pc t = .atSetMsec i a) :
    Moves s t (s.write i (s.cal i).setMsec t (.atRead i a))
  | read {i : ι} {a : Accessor} (hpc : s.pc t = .atRead i a) :
    Moves s t (s.goto t (.done i a ((s.cal i).field a)))

variable {s} {s' : CalendarSys τ ι} {t : τ}

theorem moves_of_next (hstep : s.next t = some s') : s.Moves t s' := by
  cases hpc : s.pc t with
  | idle => simp [next, hpc] at hstep
  | done i a r => simp [next, hpc] at hstep
  | atTest i a =>
    rw [next, hpc] at hstep
    obtain rfl := Option.some.inj hstep
    by_cases hvalid : (s.cal i).validated = false
    · rw [if_pos hvalid]
      exact .invalid hpc
    · rw [if_neg hvalid]
      exact .valid hpc (Bool.eq_true_of_not_eq_false hvalid)
  | atLock i a =>
    rw [next, hpc] at hstep
    obtain ⟨hfree, ⟨⟩⟩ := Option.ite_none_right_eq_some.1 hstep
    exact .lock hpc hfree
  | atGmtime i a =>
    rw [next, hpc] at hstep
    exact Option.some.inj hstep ▸ .gmtime hpc
  | atCopy i a left =>
    rw [next, hpc] at hstep
    cases left with
    | nil => exact Option.some.inj hstep ▸ .unlock hpc
    | cons f left => exact Option.some.inj hstep ▸ .copy hpc
  | atSetValidated i a =>
    rw [next, hpc] at hstep
    exact Option.some.inj hstep ▸ .setValidated hpc
  | atSetMsec i a =>
    rw [next, hpc] at hstep
    exact Option.some.inj hstep ▸ .setMsec hpc
  | atRead i a =>
    rw [next, hpc] at hstep
    exact Option.some.inj hstep ▸ .read hpc

/-! ### What is right -/

section Invariant

variable (s) (init : ι → UtcCalendar)

omit [DecidableEq τ] [DecidableEq ι]

/-- A field has what `validate` gives it. -/
def Right (i : ι) (f : Accessor) : Prop := (s.cal i).field f = (init i).validate.field f

/-- The milliseconds are right, or nobody has written them: then somebody is about to, if the
calendar says that it is validated. -/
def Msec (i : ι) : Prop :=
  s.Right init i .msecOfSec ∨ (s.cal i).field .msecOfSec = (init i).field .msecOfSec ∧
    ((s.cal i).validated = true → ∃ u a, s.pc u = .atSetMsec i a)

/-- What a thread has got is right, or the milliseconds of a calendar as it was constructed. -/
def Got (i : ι) (a : Accessor) (r : UInt16) : Prop :=
  r = (init i).validate.field a ∨ a = .msecOfSec ∧ r = (init i).field a

/-- What is so when a thread is at a position. -/
def Place : CalendarPc ι → Prop
  | .atCopy i _ left => s.tm = gmtime (init i).timestamp.inSec.toNat ∧ left ⊆ copied ∧
      ∀ f ∈ copied, f ∉ left → s.Right init i f
  | .atSetValidated i _ | .atSetMsec i _ | .atRead i _ => ∀ f ∈ copied, s.Right init i f
  | .done i a r => Got init i a r
  | _ => True

/-- The invariant. -/
structure Inv (s : CalendarSys τ ι) : Prop where
  timestamp : ∀ i, (s.cal i).timestamp = (init i).timestamp
  alone : ∀ t, (s.pc t).Critical → s.holder = some t
  place : ∀ t, s.Place init (s.pc t)
  validated : ∀ i, (s.cal i).validated = true → ∀ f ∈ copied, s.Right init i f
  msec : ∀ i, s.Msec init i

end Invariant

variable {init : ι → UtcCalendar} {i : ι} {a f : Accessor} {pc : CalendarPc ι}

omit [DecidableEq τ] [DecidableEq ι] in
theorem inv_start (tm : Tm) (hinit : ∀ i, (init i).validated = false) :
    Inv init (start tm init : CalendarSys τ ι) where
  timestamp _ := rfl
  alone _ h := h.elim
  place _ := trivial
  validated i h := absurd h (by rw [start, hinit]; decide)
  msec i := .inr ⟨rfl, fun h ↦ absurd h (by rw [start, hinit]; decide)⟩

omit [DecidableEq τ] [DecidableEq ι] in
/-- **What is right stays right**, and with it what is so at a position, unless `gmtime` is called
again. -/
theorem Place.mono (h : s.Place init pc) (hright : ∀ i f, s.Right init i f → s'.Right init i f)
    (htm : pc.Critical → s'.tm = s.tm) : s'.Place init pc := by
  cases pc with
  | atCopy i a left => exact ⟨(htm trivial).trans h.1, h.2.1, fun f hf hleft ↦
      hright i f (h.2.2 f hf hleft)⟩
  | atSetValidated i a => exact fun f hf ↦ hright i f (h f hf)
  | atSetMsec i a => exact fun f hf ↦ hright i f (h f hf)
  | atRead i a => exact fun f hf ↦ hright i f (h f hf)
  | done i a r => exact h
  | _ => trivial

omit [DecidableEq ι] in
/-- **A thread moves on.** -/
theorem Inv.move (h : s.Inv init) (hpc : s'.pc = Function.update s.pc t pc)
    (htimestamp : ∀ i, (s'.cal i).timestamp = (s.cal i).timestamp)
    (hright : ∀ i f, s.Right init i f → s'.Right init i f)
    (hholder : pc.Critical → s'.holder = some t)
    (hothers : ∀ u ≠ t, (s.pc u).Critical → s'.holder = some u ∧ s'.tm = s.tm)
    (hplace : s'.Place init pc)
    (hvalidated : ∀ i, (s'.cal i).validated = true → ∀ f ∈ copied, s'.Right init i f)
    (hmsec : ∀ i, s'.Msec init i) : s'.Inv init where
  timestamp i := (htimestamp i).trans (h.timestamp i)
  alone u hu := by
    rw [hpc] at hu
    rcases eq_or_ne u t with rfl | hut
    · rw [Function.update_self] at hu
      exact hholder hu
    · rw [Function.update_of_ne hut] at hu
      exact (hothers u hut hu).1
  place u := by
    rw [hpc]
    rcases eq_or_ne u t with rfl | hut
    · rw [Function.update_self]
      exact hplace
    · rw [Function.update_of_ne hut]
      exact (h.place u).mono hright fun hu ↦ (hothers u hut hu).2
  validated := hvalidated
  msec := hmsec

omit [DecidableEq ι] in
/-- A thread moves on and writes no calendar. -/
theorem Inv.pass (h : s.Inv init) (hpc : s'.pc = Function.update s.pc t pc) (hcal : s'.cal = s.cal)
    (hnot : ∀ i a, s.pc t ≠ .atSetMsec i a) (hholder : pc.Critical → s'.holder = some t)
    (hothers : ∀ u ≠ t, (s.pc u).Critical → s'.holder = some u ∧ s'.tm = s.tm)
    (hplace : s'.Place init pc) : s'.Inv init := by
  have hright : ∀ i f, s'.Right init i f ↔ s.Right init i f := fun i f ↦ by
    rw [Right, Right, hcal]
  refine h.move hpc (fun i ↦ by rw [hcal]) (fun i f ↦ (hright i f).2) hholder hothers hplace
    (fun i hi f hf ↦ ?_) fun i ↦ ?_
  · rw [hcal] at hi
    exact (hright i f).2 (h.validated i hi f hf)
  · rcases h.msec i with hr | ⟨hsame, hwriter⟩
    · exact .inl ((hright i _).2 hr)
    · refine .inr ⟨by rw [hcal]; exact hsame, fun hi ↦ ?_⟩
      rw [hcal] at hi
      obtain ⟨u, b, hu⟩ := hwriter hi
      have hut : u ≠ t := by
        rintro rfl
        exact hnot i b hu
      exact ⟨u, b, by rw [hpc, Function.update_of_ne hut]; exact hu⟩

theorem right_write {c : UtcCalendar} :
    (s.write i c t pc).Right init i f ↔ c.field f = (init i).validate.field f := by
  rw [Right]
  show (Function.update s.cal i c i).field f = _ ↔ _
  rw [Function.update_self]

/-- A thread moves on and writes a calendar. -/
theorem Inv.write (h : s.Inv init) {c : UtcCalendar}
    (hwhere : ∀ j b, s.pc t = .atSetMsec j b → j = i)
    (htimestamp : c.timestamp = (s.cal i).timestamp)
    (hright : ∀ f, s.Right init i f → c.field f = (init i).validate.field f)
    (hcritical : pc.Critical → (s.pc t).Critical) (hplace : (s.write i c t pc).Place init pc)
    (hvalidated : c.validated = true → ∀ f ∈ copied, c.field f = (init i).validate.field f)
    (hmsec : (s.write i c t pc).Msec init i) : (s.write i c t pc).Inv init := by
  have hother : ∀ {j}, j ≠ i → (s.write i c t pc).cal j = s.cal j := fun hji ↦
    Function.update_of_ne hji _ _
  have hself : (s.write i c t pc).cal i = c := Function.update_self _ _ _
  refine h.move rfl (fun j ↦ ?_) (fun j f hf ↦ ?_) (fun hpc ↦ h.alone t (hcritical hpc))
    (fun u _ hu ↦ ⟨h.alone u hu, rfl⟩) hplace (fun j hj f hf ↦ ?_) fun j ↦ ?_
  · rcases eq_or_ne j i with rfl | hji
    · rw [hself, htimestamp]
    · rw [hother hji]
  · rcases eq_or_ne j i with rfl | hji
    · exact right_write.2 (hright f hf)
    · rw [Right, hother hji]
      exact hf
  · rcases eq_or_ne j i with rfl | hji
    · rw [hself] at hj
      exact right_write.2 (hvalidated hj f hf)
    · rw [hother hji] at hj
      rw [Right, hother hji]
      exact h.validated j hj f hf
  · rcases eq_or_ne j i with rfl | hji
    · exact hmsec
    · rw [Msec, Right, hother hji]
      refine (h.msec j).imp id fun hj ↦ ⟨hj.1, fun hvalid ↦ ?_⟩
      obtain ⟨u, b, hu⟩ := hj.2 hvalid
      have hut : u ≠ t := by
        rintro rfl
        exact hji (hwhere j b hu)
      exact ⟨u, b, (Function.update_of_ne hut _ _).trans hu⟩

omit [DecidableEq τ] [DecidableEq ι] in
/-- The next field is copied from the result of `gmtime`, which is still this calendar's. -/
theorem Inv.right_copyField (h : s.Inv init) (hinit : (init i).validated = false)
    {left : List Accessor} (ht : s.pc t = .atCopy i a (f :: left)) :
    (copyField s.tm (s.cal i) f).field f = (init i).validate.field f ∧
      ∀ g, s.Right init i g →
        (copyField s.tm (s.cal i) f).field g = (init i).validate.field g := by
  have hplace := h.place t
  rw [ht] at hplace
  have hself : (copyField s.tm (s.cal i) f).field f = (init i).validate.field f := by
    rw [hplace.1]
    exact field_copyField hinit (hplace.2.1 List.mem_cons_self)
  refine ⟨hself, fun g hg ↦ ?_⟩
  rcases eq_or_ne g f with rfl | hgf
  · exact hself
  · rw [field_copyField_of_ne hgf]
    exact hg

theorem Inv.copy (h : s.Inv init) (hinit : (init i).validated = false) {left : List Accessor}
    (ht : s.pc t = .atCopy i a (f :: left)) :
    (s.write i (copyField s.tm (s.cal i) f) t (.atCopy i a left)).Inv init := by
  obtain ⟨hself, hright⟩ := h.right_copyField hinit ht
  have hplace := h.place t
  rw [ht] at hplace
  obtain ⟨htm, hsubset, hcopied⟩ := hplace
  refine h.write (fun j b hj ↦ ?_) timestamp_copyField hright (fun _ ↦ ht ▸ trivial) ?_
    (fun hvalid g hg ↦ ?_) ?_
  · cases ht.symm.trans hj
  · refine ⟨htm, fun g hg ↦ hsubset (List.mem_cons_of_mem _ hg), fun g hg hleft ↦ ?_⟩
    rcases eq_or_ne g f with rfl | hgf
    · exact right_write.2 hself
    · exact right_write.2 (hright g (hcopied g hg (by simp [hgf, hleft])))
  · rw [validated_copyField] at hvalid
    exact hright g (h.validated i hvalid g hg)
  · have hmf : Accessor.msecOfSec ≠ f := by
      rintro rfl
      exact absurd (hsubset List.mem_cons_self) (by decide)
    have hcal : (s.write i (copyField s.tm (s.cal i) f) t (.atCopy i a left)).cal i =
        copyField s.tm (s.cal i) f := Function.update_self _ _ _
    rw [Msec, Right, hcal, field_copyField_of_ne hmf, validated_copyField]
    refine (h.msec i).imp id fun hm ↦ ⟨hm.1, fun hvalid ↦ ?_⟩
    obtain ⟨u, b, hu⟩ := hm.2 hvalid
    have hut : u ≠ t := by
      rintro rfl
      cases ht.symm.trans hu
    exact ⟨u, b, (Function.update_of_ne hut _ _).trans hu⟩

/-- All parts are there but the milliseconds, which this thread writes next. -/
theorem Inv.validate (h : s.Inv init) (ht : s.pc t = .atSetValidated i a) :
    (s.write i (s.cal i).setValidated t (.atSetMsec i a)).Inv init := by
  have hplace := h.place t
  rw [ht] at hplace
  have hfield : ∀ g, (s.cal i).setValidated.field g = (s.cal i).field g := fun g ↦ by
    cases g <;> rfl
  refine h.write (fun j b hj ↦ ?_) rfl (fun g hg ↦ (hfield g).trans hg) (fun hc ↦ hc.elim) ?_
    (fun _ g hg ↦ (hfield g).trans (hplace g hg)) ?_
  · cases ht.symm.trans hj
  · exact fun g hg ↦ right_write.2 ((hfield g).trans (hplace g hg))
  · have hcal : (s.write i (s.cal i).setValidated t (.atSetMsec i a)).cal i =
        (s.cal i).setValidated := Function.update_self _ _ _
    rw [Msec, Right, hcal, hfield]
    exact (h.msec i).imp id fun hm ↦ ⟨hm.1, fun _ ↦ ⟨t, a, Function.update_self _ _ _⟩⟩

omit [DecidableEq τ] [DecidableEq ι] in
/-- The milliseconds are written. -/
theorem Inv.right_setMsec (h : s.Inv init) (hinit : (init i).validated = false) :
    (s.cal i).setMsec.field .msecOfSec = (init i).validate.field .msecOfSec ∧
      ∀ g, s.Right init i g → (s.cal i).setMsec.field g = (init i).validate.field g := by
  have hmsec : (s.cal i).setMsec.field .msecOfSec = (init i).validate.field .msecOfSec :=
    field_setMsec hinit (h.timestamp i)
  refine ⟨hmsec, fun g hg ↦ ?_⟩
  rcases eq_or_ne g .msecOfSec with rfl | hne
  · exact hmsec
  · rw [field_setMsec_of_ne hne]
    exact hg

theorem Inv.writeMsec (h : s.Inv init) (hinit : (init i).validated = false)
    (ht : s.pc t = .atSetMsec i a) :
    (s.write i (s.cal i).setMsec t (.atRead i a)).Inv init := by
  obtain ⟨hmsec, hright⟩ := h.right_setMsec hinit
  have hplace := h.place t
  rw [ht] at hplace
  refine h.write (fun j b hj ↦ ?_) rfl hright (fun hc ↦ hc.elim) ?_
    (fun hvalid g hg ↦ hright g (h.validated i hvalid g hg)) (.inl (right_write.2 hmsec))
  · cases ht.symm.trans hj
    rfl
  · exact fun g hg ↦ right_write.2 (hright g (hplace g hg))

/-- **One access** keeps the invariant. -/
theorem Inv.next (h : s.Inv init) (hinit : ∀ i, (init i).validated = false)
    (hstep : s.next t = some s') : s'.Inv init := by
  have hplace := h.place t
  have hothers : ∀ u ≠ t, (s.pc u).Critical → s.holder = some u ∧ s.tm = s.tm := fun u _ hu ↦
    ⟨h.alone u hu, rfl⟩
  -- while this thread has the lock, nobody else copies from `tm`
  have hcritical : (s.pc t).Critical → ∀ u ≠ t, ¬ (s.pc u).Critical := fun ht u hut hu ↦
    hut (Option.some.inj ((h.alone u hu).symm.trans (h.alone t ht)))
  cases moves_of_next hstep with
  | valid hpc hvalid =>
    exact h.pass rfl rfl (fun j b hj ↦ by cases hpc.symm.trans hj) (fun hc ↦ hc.elim) hothers
      (h.validated _ hvalid)
  | invalid hpc =>
    exact h.pass rfl rfl (fun j b hj ↦ by cases hpc.symm.trans hj) (fun hc ↦ hc.elim) hothers
      trivial
  | lock hpc hfree =>
    refine h.pass rfl rfl (fun j b hj ↦ by cases hpc.symm.trans hj) (fun _ ↦ rfl)
      (fun u _ hu ↦ ?_) trivial
    cases hfree.symm.trans (h.alone u hu)
  | gmtime hpc =>
    have ht : (s.pc t).Critical := hpc ▸ trivial
    refine h.pass rfl rfl (fun j b hj ↦ by cases hpc.symm.trans hj) (fun _ ↦ h.alone t ht)
      (fun u hut hu ↦ absurd hu (hcritical ht u hut))
      ⟨?_, fun f hf ↦ hf, fun f hf hnot ↦ absurd hf hnot⟩
    show UtcCalendar.gmtime (s.cal _).timestamp.inSec.toNat = _
    rw [h.timestamp]
  | copy hpc => exact h.copy (hinit _) hpc
  | unlock hpc =>
    have ht : (s.pc t).Critical := hpc ▸ trivial
    rw [hpc] at hplace
    exact h.pass rfl rfl (fun j b hj ↦ by cases hpc.symm.trans hj) (fun hc ↦ hc.elim)
      (fun u hut hu ↦ absurd hu (hcritical ht u hut))
      fun f hf ↦ hplace.2.2 f hf List.not_mem_nil
  | setValidated hpc => exact h.validate hpc
  | setMsec hpc => exact h.writeMsec (hinit _) hpc
  | @read i a hpc =>
    rw [hpc] at hplace
    refine h.pass rfl rfl (fun j b hj ↦ by cases hpc.symm.trans hj) (fun hc ↦ hc.elim) hothers ?_
    rcases eq_or_ne a .msecOfSec with rfl | hne
    · exact (h.msec i).imp id fun hm ↦ ⟨rfl, hm.1⟩
    · exact .inl (hplace a (mem_copied hne))

theorem Inv.step (h : s.Inv init) (hinit : ∀ i, (init i).validated = false)
    {l : CalendarLabel τ ι} (hstep : s.step l = some s') : s'.Inv init := by
  cases l with
  | call t i a =>
    cases hpc : s.pc t <;> simp only [CalendarSys.step, hpc, reduceCtorEq] at hstep
    obtain rfl := Option.some.inj hstep
    exact h.pass rfl rfl (fun j b hj ↦ by cases hpc.symm.trans hj) (fun hc ↦ hc.elim)
      (fun u _ hu ↦ ⟨h.alone u hu, rfl⟩) trivial
  | next t => exact h.next hinit hstep
  | ret t =>
    cases hpc : s.pc t <;> simp only [CalendarSys.step, hpc, reduceCtorEq] at hstep
    obtain rfl := Option.some.inj hstep
    exact h.pass rfl rfl (fun j b hj ↦ by cases hpc.symm.trans hj) (fun hc ↦ hc.elim)
      (fun u _ hu ↦ ⟨h.alone u hu, rfl⟩) trivial

/-! ### Calls that wait for a validation -/

/-- What is right is not overwritten. -/
theorem Inv.right_next (h : s.Inv init) (hinit : ∀ i, (init i).validated = false)
    (hstep : s.next t = some s') {j : ι} {g : Accessor} (hg : s.Right init j g) :
    s'.Right init j g := by
  have hwrite : ∀ {i c pc}, (∀ g, s.Right init i g → c.field g = (init i).validate.field g) →
      (s.write i c t pc).Right init j g := by
    intro i c pc hright
    rcases eq_or_ne j i with rfl | hji
    · exact right_write.2 (hright g hg)
    · exact (congrArg (UtcCalendar.field · g) (Function.update_of_ne hji c s.cal)).trans hg
  cases moves_of_next hstep with
  | copy hpc => exact hwrite (h.right_copyField (hinit _) hpc).2
  | setValidated hpc => exact hwrite fun g hg ↦ Eq.trans (by cases g <;> rfl) hg
  | setMsec hpc => exact hwrite (h.right_setMsec (hinit _)).2
  | valid | invalid | lock | gmtime | unlock | read => exact hg

/-- Where a thread has come from. -/
theorem pc_next (hstep : s.next t = some s') : ∃ pc, s'.pc = Function.update s.pc t pc ∧
    (∀ i a, pc = .atRead i a →
      s.pc t = .atTest i a ∧ (s.cal i).validated = true ∨ s.pc t = .atSetMsec i a) ∧
    ∀ i a r, pc = .done i a r → s.pc t = .atRead i a ∧ r = (s.cal i).field a := by
  cases moves_of_next hstep with
  | valid hpc hvalid =>
    refine ⟨_, rfl, ?_, nofun⟩
    rintro i a ⟨⟩
    exact .inl ⟨hpc, hvalid⟩
  | setMsec hpc =>
    refine ⟨_, rfl, ?_, nofun⟩
    rintro i a ⟨⟩
    exact .inr hpc
  | read hpc =>
    refine ⟨_, rfl, nofun, ?_⟩
    rintro i a r ⟨⟩
    exact ⟨hpc, rfl⟩
  | invalid | lock | gmtime | copy | unlock | setValidated => exact ⟨_, rfl, nofun, nofun⟩

/-- **The condition.** Nobody asks a calendar for its milliseconds while another thread has still to
write them. -/
def Waits (s : CalendarSys τ ι) (l : CalendarLabel τ ι) : Prop :=
  ∀ t i, l = .next t → s.pc t = .atTest i .msecOfSec → ∀ u a, s.pc u ≠ .atSetMsec i a

/-- What has been got is right. -/
structure AllRight (init : ι → UtcCalendar) (s : CalendarSys τ ι) : Prop where
  inv : s.Inv init
  read : ∀ t i, s.pc t = .atRead i .msecOfSec → s.Right init i .msecOfSec
  done : ∀ t i a r, s.pc t = .done i a r → r = (init i).validate.field a

theorem AllRight.next (h : s.AllRight init) (hinit : ∀ i, (init i).validated = false)
    (hwaits : s.Waits (.next t)) (hstep : s.next t = some s') : s'.AllRight init := by
  have hright : ∀ {j g}, s.Right init j g → s'.Right init j g := h.inv.right_next hinit hstep
  obtain ⟨pc, hpc, hread, hdone⟩ := pc_next hstep
  refine ⟨h.inv.next hinit hstep, fun u i hu ↦ ?_, fun u i a r hu ↦ ?_⟩
  · rcases eq_or_ne u t with rfl | hut
    · rw [hpc, Function.update_self] at hu
      rcases hread i _ hu with ⟨htest, hvalid⟩ | hset
      · -- the calendar is validated, and nobody is about to write its milliseconds
        rcases h.inv.msec i with hr | ⟨-, hwriter⟩
        · exact hright hr
        · obtain ⟨w, b, hw⟩ := hwriter hvalid
          exact absurd hw (hwaits u i rfl htest w b)
      · rw [CalendarSys.next, hset] at hstep
        obtain rfl := Option.some.inj hstep
        exact right_write.2 (h.inv.right_setMsec (hinit i)).1
    · rw [hpc, Function.update_of_ne hut] at hu
      exact hright (h.read u i hu)
  · rcases eq_or_ne u t with rfl | hut
    · rw [hpc, Function.update_self] at hu
      obtain ⟨hat, rfl⟩ := hdone i a r hu
      have hplace := h.inv.place u
      rw [hat] at hplace
      rcases eq_or_ne a .msecOfSec with rfl | hne
      · exact h.read u i hat
      · exact hplace a (mem_copied hne)
    · rw [hpc, Function.update_of_ne hut] at hu
      exact h.done u i a r hu

theorem AllRight.step (h : s.AllRight init) (hinit : ∀ i, (init i).validated = false)
    {l : CalendarLabel τ ι} (hwaits : s.Waits l) (hstep : s.step l = some s') :
    s'.AllRight init := by
  have hinv := h.inv.step hinit hstep
  -- a call begins or ends
  have hgoto : ∀ {t pc}, s' = s.goto t pc → (∀ i a, pc ≠ .atRead i a) →
      (∀ i a r, pc ≠ .done i a r) → s'.AllRight init := by
    rintro t pc rfl hread hdone
    have hself : (s.goto t pc).pc t = pc := Function.update_self _ _ _
    have hother : ∀ u ≠ t, (s.goto t pc).pc u = s.pc u := fun u hut ↦
      Function.update_of_ne hut _ _
    refine ⟨hinv, fun u i hu ↦ ?_, fun u i a r hu ↦ ?_⟩
    · rcases eq_or_ne u t with rfl | hut
      · exact absurd (hself.symm.trans hu) (hread i _)
      · exact h.read u i ((hother u hut).symm.trans hu)
    · rcases eq_or_ne u t with rfl | hut
      · exact absurd (hself.symm.trans hu) (hdone i a r)
      · exact h.done u i a r ((hother u hut).symm.trans hu)
  cases l with
  | call t i a =>
    cases hpc : s.pc t <;> simp only [CalendarSys.step, hpc, reduceCtorEq] at hstep
    exact hgoto (Option.some.inj hstep).symm nofun nofun
  | next t => exact h.next hinit hwaits hstep
  | ret t =>
    cases hpc : s.pc t <;> simp only [CalendarSys.step, hpc, reduceCtorEq] at hstep
    exact hgoto (Option.some.inj hstep).symm nofun nofun

/-- A second and 234 milliseconds, with 7 in the field. -/
def fresh : UtcCalendar where
  timestamp := ⟨1234⟩
  validated := false
  year := 0
  monthOfYear := 0
  dayOfMonth := 0
  hourOfDay := 0
  minOfHour := 0
  secOfMin := 0
  msecOfSec := 7
  dayOfYear := 0
  dayOfWeek := 0

end CalendarSys

end Libk2
