import RtThread.Kernel.Thread
import RtThread.Lib.Run

/-!
# The ready set

Which threads are ready is stored five times over: in `stat`, in the list that links the thread, in
the bit of its priority, in `current_priority` and in `number_mask`. `ReadyOk` says that the five
agree. Two operations of `thread.c` may break it: detaching or deleting a thread that was never
started uses its `number_mask`, and starting a ready thread once more leaves the bit of its old
priority behind.
-/

namespace RtThread
open List

theorem getLsbD_and_not {g m : BitVec 32} {q : Fin 32} (h : g &&& m = g &&& priorityMask q)
    (p : Fin 32) : (g &&& ~~~m).getLsbD p = (g.getLsbD p && decide (p ≠ q)) := by
  have hbit := congrArg (BitVec.getLsbD · p) h
  simp only [BitVec.getLsbD_and, getLsbD_priorityMask] at hbit
  simp only [BitVec.getLsbD_and, BitVec.getLsbD_not, p.isLt, decide_true, Bool.true_and, ne_eq,
    decide_not]
  revert hbit
  cases g.getLsbD p <;> cases m.getLsbD p <;> simp

namespace Kernel

attribute [local simp] rtTimerStop

section Lists
variable {τ ι : Type*} {k k' : Kernel τ ι} {t u : τ}

/-- The bits follow the ready lists, and a thread is linked at most once. -/
structure Queues (k : Kernel τ ι) : Prop where
  bit : ∀ p : Fin 32, k.readyPriorityGroup.getLsbD p = true ↔ k.list (.ready p) ≠ []
  nodup : ∀ h, (k.list h).Nodup
  unique : ∀ {t h h'}, t ∈ k.list h → t ∈ k.list h' → h = h'

/-- `number_mask` is the bit of the priority. -/
def MaskOk (k : Kernel τ ι) (t : τ) : Prop :=
  (k.thread t).numberMask = priorityMask (k.thread t).currentPriority

/-- The encodings of the state of one thread agree: it is in the ready list of its priority exactly
if it is ready, in no list before it is started, and its mask is right once it is started. -/
structure OwnOk (k : Kernel τ ι) (t : τ) : Prop where
  mem : ∀ p, t ∈ k.list (.ready p) ↔ (k.thread t).stat = .ready ∧ (k.thread t).currentPriority = p
  fresh : (k.thread t).stat = .init → ∀ h, t ∉ k.list h
  mask : (k.thread t).stat = .ready ∨ (k.thread t).stat = .suspend → MaskOk k t

/-- The five encodings of the ready set agree. -/
structure ReadyOk (k : Kernel τ ι) : Prop extends Queues k where
  own : ∀ t, OwnOk k t

theorem OwnOk.congr (h : OwnOk k u) (hthread : k'.thread u = k.thread u)
    (hlist : ∀ l, u ∈ k'.list l ↔ u ∈ k.list l) : OwnOk k' u where
  mem p := by rw [hlist, hthread]; exact h.mem p
  fresh hs l := by
    rw [hthread] at hs
    rw [hlist]
    exact h.fresh hs l
  mask hs := by
    rw [hthread] at hs
    rw [MaskOk, hthread]
    exact h.mask hs

theorem OwnOk.of_unlinked (hlist : ∀ l, t ∉ k.list l) (hstat : (k.thread t).stat ≠ .ready)
    (hmask : (k.thread t).stat = .suspend → MaskOk k t) : OwnOk k t where
  mem p := by simp [hlist, hstat]
  fresh _ := hlist
  mask hs := hmask (hs.resolve_left hstat)

theorem ReadyOk.congr (h : ReadyOk k) (hlist : k'.list = k.list)
    (hgroup : k'.readyPriorityGroup = k.readyPriorityGroup)
    (hthread : ∀ u, (k'.thread u).stat = (k.thread u).stat ∧
      (k'.thread u).currentPriority = (k.thread u).currentPriority ∧
      (k'.thread u).numberMask = (k.thread u).numberMask) : ReadyOk k' where
  bit := by rw [hgroup, hlist]; exact h.bit
  nodup := by rw [hlist]; exact h.nodup
  unique hx hy := by
    rw [hlist] at hx hy
    exact h.unique hx hy
  own u := by
    obtain ⟨hstat, hprio, hmask⟩ := hthread u
    refine ⟨?_, ?_, ?_⟩
    · rw [hlist, hstat, hprio]; exact (h.own u).mem
    · rw [hlist, hstat]; exact (h.own u).fresh
    · rw [MaskOk, hstat, hprio, hmask]; exact (h.own u).mask

theorem ReadyOk.priority_of_mem (h : ReadyOk k) (p : Fin 32) (hp : t ∈ k.list (.ready p)) :
    p = (k.thread t).currentPriority :=
  (((h.own t).mem p).mp hp).2.symm

theorem ReadyOk.rtSchedule (h : ReadyOk k) : ReadyOk k.rtSchedule :=
  h.congr (rtSchedule_list k) (rtSchedule_group k) fun u => by simp

variable [DecidableEq τ]

/-- What `rt_schedule_remove_thread` needs of `number_mask`: if it clears bits at all, it clears the
bit of the priority. -/
def RemoveSafe (k : Kernel τ ι) (t : τ) : Prop :=
  (k.list (.ready (k.thread t).currentPriority)).erase t = [] →
    k.readyPriorityGroup &&& (k.thread t).numberMask =
      k.readyPriorityGroup &&& priorityMask (k.thread t).currentPriority

theorem MaskOk.removeSafe (h : MaskOk k t) : RemoveSafe k t := fun _ => by rw [h]

theorem Queues.mem_erase (h : Queues k) {l : ListHead ι} :
    u ∈ (k.list l).erase t ↔ u ≠ t ∧ u ∈ k.list l :=
  (h.nodup l).mem_erase_iff

theorem Queues.remove (h : Queues k) (hsafe : RemoveSafe k t)
    (hpriority : ∀ p, t ∈ k.list (.ready p) → p = (k.thread t).currentPriority) :
    Queues (k.rtScheduleRemoveThread t) where
  bit p := by
    have hbit := h.bit p
    rw [rtScheduleRemoveThread_group, rtScheduleRemoveThread_list]
    by_cases hp : p = (k.thread t).currentPriority
    · subst hp
      by_cases hempty : (k.list (.ready (k.thread t).currentPriority)).erase t = []
      · rw [if_pos hempty, getLsbD_and_not (hsafe hempty)]
        simp [hempty]
      · have hne : k.list (.ready (k.thread t).currentPriority) ≠ [] := by
          intro hnil
          rw [hnil] at hempty
          exact hempty rfl
        rw [if_neg hempty, hbit]
        exact iff_of_true hne hempty
    · rw [erase_of_not_mem fun hmem => hp (hpriority p hmem), ← hbit]
      split
      · rename_i hempty
        rw [getLsbD_and_not (hsafe hempty)]
        simp [hp]
      · rfl
  nodup l := by
    rw [rtScheduleRemoveThread_list]
    exact (h.nodup l).erase t
  unique hx hy := by
    rw [rtScheduleRemoveThread_list] at hx hy
    exact h.unique (mem_of_mem_erase hx) (mem_of_mem_erase hy)

theorem Queues.setThread (h : Queues k) (f : Thread → Thread) : Queues (k.setThread t f) :=
  ⟨h.bit, h.nodup, h.unique⟩

theorem ReadyOk.of_parts (h : ReadyOk k) (hq : Queues k') (ht : OwnOk k' t)
    (hthread : ∀ u, u ≠ t → k'.thread u = k.thread u)
    (hlist : ∀ u, u ≠ t → ∀ l, u ∈ k'.list l ↔ u ∈ k.list l) : ReadyOk k' where
  toQueues := hq
  own u := by
    by_cases hu : u = t
    · exact hu ▸ ht
    · exact (h.own u).congr (hthread u hu) (hlist u hu)

theorem rtListRemove_of_unlinked (h : ∀ l, t ∉ k.list l) : k.rtListRemove t = k := by
  rw [rtListRemove]
  simp [erase_of_not_mem (h _)]

theorem ReadyOk.rtThreadSuspend (h : ReadyOk k) : ReadyOk (k.rtThreadSuspend t).2 := by
  by_cases hs : (k.thread t).stat = .ready
  · rw [rtThreadSuspend_of_ready hs]
    have hmask := (h.own t).mask (.inl hs)
    have hq : Queues (((k.setThread t fun x =>
        { x with stat := .suspend }).rtScheduleRemoveThread t).rtTimerStop t) := by
      refine Queues.setThread (Queues.remove (h.toQueues.setThread _) (MaskOk.removeSafe ?_)
        fun p hp => ?_) _
      · simpa [MaskOk] using hmask
      · simpa using h.priority_of_mem p hp
    refine h.of_parts (t := t) hq ?_ (fun u hu => ?_) fun u hu l => ?_
    · refine .of_unlinked (fun l => ?_) ?_ fun _ => ?_
      · simp [h.mem_erase]
      · simp
      · simpa [MaskOk] using hmask
    · simp [hu]
    · simp [h.mem_erase, hu]
  · rw [Kernel.rtThreadSuspend, if_pos hs]
    exact h

theorem ReadyOk.rtThreadSleep (h : ReadyOk k) (tick : BitVec 32) :
    ReadyOk (k.rtThreadSleep t tick) := by
  refine ReadyOk.rtSchedule ((h.rtThreadSuspend).congr rfl rfl fun u => ?_)
  by_cases hu : u = t
  · subst hu
    simp [rtTimerStart]
  · simp [rtTimerStart, hu]

end Lists

variable {τ ι : Type*} [DecidableEq ι] {k : Kernel τ ι} {t u : τ} {l : ListHead ι} {ts : List τ}

/-- The list `h` is replaced by `ts`. -/
@[simps] def setList (k : Kernel τ ι) (h : ListHead ι) (ts : List τ) : Kernel τ ι :=
  { k with list := Function.update k.list h ts }

theorem mem_setList_of_perm {l' : ListHead ι} (hperm : ts.Perm (t :: k.list l)) :
    u ∈ (k.setList l ts).list l' ↔ u ∈ k.list l' ∨ (u = t ∧ l' = l) := by
  by_cases hl : l' = l
  · subst hl
    simp [hperm.mem_iff, or_comm]
  · simp [hl]

/-- Linking an unlinked thread into a list other than the ready lists, at whatever place. -/
theorem Queues.link (h : Queues k) (hfree : ∀ l, t ∉ k.list l)
    (hl : ∀ p, l ≠ .ready p) (hperm : ts.Perm (t :: k.list l)) : Queues (k.setList l ts) where
  bit p := by
    have hp : ListHead.ready p ≠ l := (hl p).symm
    simpa [hp] using h.bit p
  nodup l' := by
    by_cases hl' : l' = l
    · subst hl'
      simp only [setList_list, Function.update_self, hperm.nodup_iff, nodup_cons]
      exact ⟨hfree _, h.nodup _⟩
    · simpa [hl'] using h.nodup l'
  unique := by
    intro u l1 l2 hx hy
    rw [mem_setList_of_perm hperm] at hx hy
    rcases hx with hx | ⟨rfl, rfl⟩ <;> rcases hy with hy | ⟨heq, rfl⟩
    · exact h.unique hx hy
    · exact absurd hx (heq ▸ hfree l1)
    · exact absurd hy (hfree l2)
    · rfl

theorem ReadyOk.link (h : ReadyOk k) (hfree : ∀ l, t ∉ k.list l)
    (hl : ∀ p, l ≠ .ready p) (hperm : ts.Perm (t :: k.list l))
    (hready : (k.thread t).stat ≠ .ready) (hinit : (k.thread t).stat ≠ .init) :
    ReadyOk (k.setList l ts) where
  toQueues := h.toQueues.link hfree hl hperm
  own u := by
    by_cases hu : u = t
    · subst hu
      refine ⟨fun p => ?_, fun hs => absurd hs hinit, (h.own u).mask⟩
      rw [mem_setList_of_perm hperm]
      simp [hfree, hready, (hl p).symm]
    · refine (h.own u).congr rfl fun l' => ?_
      rw [mem_setList_of_perm hperm]
      simp [hu]

variable [DecidableEq τ]

theorem mem_insert_list : u ∈ (k.rtScheduleInsertThread t).list l ↔
      u ∈ k.list l ∨ (u = t ∧ l = .ready (k.thread t).currentPriority) := by
  rw [rtScheduleInsertThread_list]
  split <;> simp_all

theorem mem_relist (h : Queues k) : u ∈ ((k.rtListRemove t).rtScheduleInsertThread t).list l ↔
      (u ≠ t ∧ u ∈ k.list l) ∨ (u = t ∧ l = .ready (k.thread t).currentPriority) := by
  rw [mem_insert_list, rtListRemove_list, h.mem_erase, rtListRemove_thread]

/-- `rt_list_remove` and then `rt_schedule_insert_thread`: the thread is moved to the end of the
ready list of its priority. If it leaves another ready list, that must not become empty. -/
theorem Queues.relist (h : Queues k) (hmask : MaskOk k t)
    (hsafe : ∀ p, t ∈ k.list (.ready p) → p ≠ (k.thread t).currentPriority →
      (k.list (.ready p)).erase t ≠ []) :
    Queues ((k.rtListRemove t).rtScheduleInsertThread t) where
  bit p := by
    have hbit := h.bit p
    rw [rtScheduleInsertThread_group, rtScheduleInsertThread_list, BitVec.getLsbD_or,
      rtListRemove_thread, hmask, getLsbD_priorityMask, rtListRemove_readyPriorityGroup]
    by_cases hp : p = (k.thread t).currentPriority
    · simp [hp]
    · rw [if_neg (by simpa using hp), rtListRemove_list]
      simp only [hp, decide_false, Bool.or_false, hbit]
      by_cases hmem : t ∈ k.list (.ready p)
      · exact iff_of_true (ne_nil_of_mem hmem) (hsafe p hmem hp)
      · rw [erase_of_not_mem hmem]
  nodup l := by
    rw [rtScheduleInsertThread_list, rtListRemove_list]
    have herase := (h.nodup l).erase t
    split
    · exact herase.append (nodup_singleton t) (by simp [h.mem_erase])
    · exact herase
  unique := by
    intro u l l' hx hy
    rw [mem_relist h] at hx hy
    rcases hx with ⟨hne, hx⟩ | ⟨rfl, hl⟩ <;> rcases hy with ⟨hne', hy⟩ | ⟨heq, hl'⟩
    · exact h.unique hx hy
    · exact absurd heq hne
    · exact absurd rfl hne'
    · rw [hl, hl']

attribute [local simp] MaskOk

theorem ReadyOk.of_relist (h : Queues k) (hothers : ∀ u, u ≠ t → OwnOk k u) (hmask : MaskOk k t)
    (hsafe : ∀ p, t ∈ k.list (.ready p) → p ≠ (k.thread t).currentPriority →
      (k.list (.ready p)).erase t ≠ []) :
    ReadyOk ((k.rtListRemove t).rtScheduleInsertThread t) where
  toQueues := h.relist hmask hsafe
  own u := by
    by_cases hu : u = t
    · subst hu
      refine ⟨fun p => ?_, fun hs => ?_, fun _ => ?_⟩
      · rw [mem_relist h]
        simp [eq_comm]
      · simp at hs
      · simpa using hmask
    · refine (hothers u hu).congr ?_ fun l => ?_
      · simp [hu]
      · rw [mem_relist h]
        simp [hu]

theorem ReadyOk.rtThreadResume (h : ReadyOk k) : ReadyOk (k.rtThreadResume t).2 := by
  by_cases hs : (k.thread t).stat = .suspend
  · rw [rtThreadResume_of_suspend hs]
    refine ReadyOk.of_relist (h.toQueues.setThread _) (fun u hu => ?_) ?_ ?_
    · exact (h.own u).congr (by simp [hu]) fun l => Iff.rfl
    · simpa using (h.own t).mask (.inr hs)
    · intro p hp hne
      exact absurd (h.priority_of_mem p hp) (by simpa using hne)
  · rw [rtThreadResume_of_not_suspend hs]
    exact h

/-- `rt_thread_startup` is safe unless the thread is ready, and then as long as its priority is
still the initial one or another thread is ready at its priority. -/
def StartupSafe (k : Kernel τ ι) (t : τ) : Prop :=
  (k.thread t).stat = .ready → (k.thread t).currentPriority = (k.thread t).initPriority ∨
    (k.list (.ready (k.thread t).currentPriority)).erase t ≠ []

section
variable (h : ReadyOk k)
include h

theorem ReadyOk.rtThreadStartup (hsafe : StartupSafe k t) : ReadyOk (k.rtThreadStartup t) := by
  have hresumed : ReadyOk (((k.setThread t fun x =>
      { x with
        currentPriority := x.initPriority
        numberMask := priorityMask x.initPriority
        stat := .suspend }).rtThreadResume t).2) := by
    rw [rtThreadResume_of_suspend (by simp)]
    refine ReadyOk.of_relist ((h.toQueues.setThread _).setThread _) (fun u hu => ?_) ?_ ?_
    · exact (h.own u).congr (by simp [hu]) fun l => Iff.rfl
    · simp
    · intro p hp hne
      obtain ⟨hs, rfl⟩ := ((h.own t).mem p).mp hp
      refine (hsafe hs).resolve_left fun heq => hne ?_
      simpa using heq
  rw [Kernel.rtThreadStartup]
  split
  · exact hresumed.rtSchedule
  · exact hresumed

theorem ReadyOk.rtThreadChangePriority (p : Fin 32) : ReadyOk (k.rtThreadChangePriority t p) := by
  rw [Kernel.rtThreadChangePriority]
  by_cases hs : (k.thread t).stat = .ready
  · rw [if_pos hs]
    have hq : Queues (k.rtScheduleRemoveThread t) :=
      h.toQueues.remove ((h.own t).mask (.inl hs)).removeSafe h.priority_of_mem
    have hfree : ∀ l, t ∉ (k.rtScheduleRemoveThread t).list l := by simp [h.mem_erase]
    have hrelist := ReadyOk.of_relist (t := t) (hq.setThread (t := t) fun x =>
      { x with currentPriority := p, numberMask := priorityMask p }) (fun u hu => ?_) ?_ ?_
    · -- the thread is unlinked already, so that inserting it is relisting it
      rwa [rtListRemove_of_unlinked (by simpa using hfree)] at hrelist
    · refine (h.own u).congr (by simp [hu]) fun l => ?_
      simp [h.mem_erase, hu]
    · simp
    · intro q hq'
      exact absurd hq' (hfree _)
  · rw [if_neg hs]
    refine h.of_parts (t := t) (h.toQueues.setThread _) ⟨fun q => ?_, ?_, ?_⟩
      (fun u hu => by simp [hu]) fun u _ l => Iff.rfl
    · have := (h.own t).mem q
      simpa [hs] using this
    · simpa using (h.own t).fresh
    · simp

theorem ReadyOk.rtThreadTimeout
    (hstat : (k.thread t).stat = .ready ∨ (k.thread t).stat = .suspend) :
    ReadyOk (k.rtThreadTimeout t) := by
  refine ReadyOk.rtSchedule (ReadyOk.of_relist (h.toQueues.setThread _) (fun u hu => ?_) ?_ ?_)
  · exact (h.own u).congr (by simp [hu]) fun l => Iff.rfl
  · simpa using (h.own t).mask hstat
  · intro p hp hne
    exact absurd (h.priority_of_mem p hp) (by simpa using hne)

theorem ReadyOk.rtThreadYield : ReadyOk (k.rtThreadYield t) := by
  rw [Kernel.rtThreadYield]
  split
  · rename_i hs
    refine ReadyOk.rtSchedule ?_
    have hmask := (h.own t).mask (.inl hs.1)
    have hrelist := ReadyOk.of_relist h.toQueues (fun u _ => h.own u) hmask fun p hp hne =>
      absurd (h.priority_of_mem p hp) hne
    -- inserting the thread sets a bit that is set, and `stat` is what it was
    refine hrelist.congr ?_ ?_ fun u => ?_
    · funext l
      rw [rtScheduleInsertThread_list, rtListInsertBefore_list, Function.update_apply]
      split
      · rename_i heq
        rw [heq]
      · rfl
    · have hbit := (h.bit (k.thread t).currentPriority).mpr (ne_nil_of_mem hs.2.2)
      rw [rtScheduleInsertThread_group]
      refine BitVec.eq_of_getLsbD_eq fun i hi => ?_
      have hi' := getLsbD_priorityMask (k.thread t).currentPriority ⟨i, hi⟩
      simp only [rtListInsertBefore_readyPriorityGroup, rtListRemove_readyPriorityGroup,
        rtListRemove_thread, BitVec.getLsbD_or, hmask.symm ▸ hi']
      by_cases heq : (⟨i, hi⟩ : Fin 32) = (k.thread t).currentPriority
      · rw [← heq] at hbit
        simp [hbit]
      · simp [heq]
    · by_cases hu : u = t
      · subst hu
        simp [hs.1]
      · simp [hu]
  · exact h

theorem ReadyOk.closed (k' : Kernel τ ι) (hsafe : RemoveSafe k t)
    (hlist : k'.list = (k.rtScheduleRemoveThread t).list)
    (hgroup : k'.readyPriorityGroup = (k.rtScheduleRemoveThread t).readyPriorityGroup)
    (hthread : ∀ u, u ≠ t → k'.thread u = k.thread u) (hstat : (k'.thread t).stat = .close) :
    ReadyOk k' ∧ ReadyOk (k'.rtListInsertAfter t .defunct) := by
  have hq := h.toQueues.remove hsafe h.priority_of_mem
  have hq' : Queues k' := ⟨by rw [hlist, hgroup]; exact hq.bit, by rw [hlist]; exact hq.nodup,
    fun hx hy => by rw [hlist] at hx hy; exact hq.unique hx hy⟩
  have hfree : ∀ l, t ∉ k'.list l := by simp [hlist, h.mem_erase]
  have hclosed : ReadyOk k' := by
    refine h.of_parts hq' (.of_unlinked hfree (by simp [hstat]) (by simp [hstat])) hthread ?_
    intro u hu l
    simp [hlist, h.mem_erase, hu]
  exact ⟨hclosed, hclosed.link hfree (by simp) (List.Perm.refl _) (by simp [hstat])
    (by simp [hstat])⟩

attribute [local simp] rtTimerDetach

theorem ReadyOk.rtThreadExit (hsafe : RemoveSafe k t) : ReadyOk (k.rtThreadExit t) := by
  rw [Kernel.rtThreadExit]
  refine ReadyOk.rtSchedule ?_
  split
  · exact (h.closed ((((k.rtScheduleRemoveThread t).setThread t fun x =>
      { x with stat := .close }).rtTimerDetach t).rtObjectDetach t) hsafe rfl rfl
      (fun u hu => by simp [rtObjectDetach, hu])
      (by simp [rtObjectDetach])).1
  · exact (h.closed (((k.rtScheduleRemoveThread t).setThread t fun x =>
      { x with stat := .close }).rtTimerDetach t) hsafe rfl rfl
      (fun u hu => by simp [hu]) (by simp)).2

theorem ReadyOk.rtThreadDetach (hsafe : RemoveSafe k t) : ReadyOk (k.rtThreadDetach t) := by
  have hboth := h.closed ((((k.rtScheduleRemoveThread t).rtTimerDetach t).setThread t
    fun x => { x with stat := .close }).rtObjectDetach t) hsafe rfl rfl
    (fun u hu => by simp [rtObjectDetach, hu])
    (by simp [rtObjectDetach])
  rw [Kernel.rtThreadDetach]
  split
  · exact hboth.2
  · exact hboth.1

theorem ReadyOk.rtThreadDelete (hsafe : RemoveSafe k t) : ReadyOk (k.rtThreadDelete t) :=
  (h.closed (((k.rtScheduleRemoveThread t).rtTimerDetach t).setThread t
    fun x => { x with stat := .close }) hsafe rfl rfl
    (fun u hu => by simp [hu]) (by simp)).2

end
end Kernel
end RtThread
