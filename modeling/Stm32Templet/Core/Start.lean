import Stm32Templet.Core.Step

/-! # The start of the kernel

`OSInit`, the creation of the tasks and `OSStart` establish the invariant, so that it holds in
every state that the machine can reach, and every run of it is one of the model
(`Machine.reach_simulates`). -/

namespace Stm32Templet.Core

open Bitmap Linked Os Runs

variable {k : Kern} {A : Model} {obj : ℕ → Obj} {prio : ℕ}

/-- The events before the start: semaphores, mailboxes and queues that have been created. -/
def Obj.Created : Obj → Prop
  | sem cnt => cnt ≤ 65535
  | mbox _ => True
  | q pq => ∃ start, ∃ size > 0, pq = osQCreate start size

/-- What is in a semaphore, mailbox or queue. -/
def Obj.messages : Obj → List ℕ
  | sem cnt => List.replicate cnt 0
  | mbox p => if p = 0 then [] else [p]
  | q pq => pq.messages

def Obj.room : Obj → ℕ
  | sem _ => 65535
  | mbox _ => 1
  | q pq => pq.OSQSize

theorem Obj.Rep.messages_eq {o : Obj} {b : Buffer} (h : o.Rep b) : o.messages = b.items := by
  cases o with
  | sem cnt => exact h.2.2.symm
  | mbox p => exact h.2.2.symm
  | q pq => exact h.2.2.messages_eq

theorem Obj.Created.rep {o : Obj} (h : o.Created) :
    o.Rep ⟨o.kind, o.room, o.messages⟩ ∧ o.messages.length ≤ o.room := by
  cases o with
  | sem cnt => exact ⟨⟨rfl, rfl, rfl⟩, by rw [messages, List.length_replicate]; exact h⟩
  | mbox p =>
      refine ⟨⟨rfl, rfl, rfl⟩, ?_⟩
      change (if p = 0 then [] else [p]).length ≤ 1
      split
      · exact Nat.zero_le _
      · exact Nat.le_refl _
  | q pq =>
      obtain ⟨start, size, hsize, rfl⟩ := h
      have hq := queue_osQCreate hsize start
      have he : (osQCreate start size).messages = [] := hq.messages_eq
      refine ⟨⟨rfl, rfl, ?_⟩, ?_⟩
      · rw [messages, he]
        exact hq
      · rw [messages, he]
        exact Nat.zero_le _

/-! ### Before multitasking -/

theorem Model.perm_exec {A' : Model} {as : List Act} (h : exec Model.step A as = some A') :
    A'.tcbs.Perm A.tcbs :=
  exec_invariant' (I := fun B => B.tcbs.Perm A.tcbs) (fun _ _ _ hB hs => (perm_step hs).trans hB)
    (.refl _) h

/-- The model before any task is created. -/
def Model.init (obj : ℕ → Obj) : Model where
  list := []
  free := List.range (OS_MAX_TASKS + OS_N_SYS_TASKS)
  reserved := []
  taken := []
  task _ := ⟨0, false, .run 0⟩
  buffer e := ⟨(obj e).kind, (obj e).room, (obj e).messages⟩

theorem osInitVars_rep (hobj : ∀ e, (obj e).Created) : (osInitVars obj).Rep (.init obj) where
  ok := ⟨(List.append_nil _).symm ▸ List.nodup_range, nofun, nofun, nofun, nofun, nofun,
    fun e => (hobj e).rep.2⟩
  links := rfl
  chain := by
    have hnext : Chain
        (fun i => if i + 1 < OS_MAX_TASKS + OS_N_SYS_TASKS then some (i + 1) else none) (some 0)
        (Model.init obj).free :=
      ⟨rfl, rfl, rfl, rfl, rfl, rfl, rfl, rfl, rfl, rfl, rfl, rfl, rfl⟩
    exact hnext.congr fun _ _ => rfl
  ctr := rfl
  prioTbl p i := by
    constructor
    · exact nofun
    · exact fun h => nomatch h.1
  reserved _ := iff_of_false nofun nofun
  task := nofun
  obj e := (hobj e).rep.1
  rdy :=
    Table.is_empty.congr fun p => iff_of_false (Set.notMem_empty p) fun ⟨_, hi, _⟩ => nomatch hi
  wait e :=
    Table.is_empty.congr fun p => iff_of_false (Set.notMem_empty p) fun ⟨_, hi, _⟩ => nomatch hi

/-- The step is one of a creation. -/
def Act.Creates : Act → Prop
  | reserve _ | release _ | alloc _ | create _ _ => True
  | _ => False

theorem Model.exec_creates {A' : Model} {as : List Act} (has : ∀ a ∈ as, a.Creates)
    (hok : A.Ok) (hrun : ∀ i ∈ A.list, (A.task i).phase = .run 0)
    (h : exec Model.step A as = some A') :
    (∀ i ∈ A'.list, (A'.task i).phase = .run 0) ∧ A'.buffer = A.buffer := by
  refine (exec_invariant (C := fun _ a => Act.Creates a)
    (I := fun B => B.Ok ∧ (∀ i ∈ B.list, (B.task i).phase = .run 0) ∧ B.buffer = A.buffer)
    (fun B a B' ⟨hok, hrun, hbuffer⟩ ha hs => ⟨hok.step hs, ?_⟩) ⟨hok, hrun, rfl⟩
    (along_of_mem fun a h _ => has a h) h).2
  obtain ⟨hallowed, rfl⟩ := step_eq_some.mp hs
  cases a with
  | reserve prio => exact ⟨hrun, hbuffer⟩
  | release prio => exact ⟨hrun, hbuffer⟩
  | alloc i => exact ⟨hrun, hbuffer⟩
  | create i prio =>
      refine ⟨fun j hj => ?_, hbuffer⟩
      rcases List.mem_cons.mp hj with rfl | hj
      · rw [create_task_self]
      · rw [create_task_of_mem (hok.mem_create hallowed) hj]
        exact hrun j hj
  | delete i => exact ha.elim
  | change i c => exact ha.elim
  | put e pmsg => exact ha.elim
  | take e pmsg => exact ha.elim

/-- A creation before multitasking: three sections if it succeeds, and three if there is no task
control block left. -/
theorem createTask_spec (h : k.Rep A) (hint : k.OSIntNesting = 0) (hle : prio ≤ OS_LOWEST_PRIO) :
    ∃ as A', (∀ a ∈ as, a.Creates) ∧ exec Model.step A as = some A' ∧
      (createTask prio k).Rep A' ∧ (createTask prio k).ctl = k.ctl ∧
      (createTask prio k).OSLockNesting = k.OSLockNesting ∧
      ((∃ j ∈ A.list, (A.task j).prio = prio) ∨ prio ∈ A.reserved ∨ A.free = [] ∨
        ∃ i, as = [.reserve prio, .alloc i, .create i prio]) := by
  unfold createTask
  rcases osTaskCreate_spec h hle with ⟨hx, _, hwhy⟩ | ⟨_, hgoes, hlock, hx⟩
  · rw [hx]
    refine ⟨[], A, nofun, rfl, h, rfl, rfl, ?_⟩
    rcases hwhy with hpos | hused | hres
    · exact absurd hint (Nat.ne_of_gt hpos)
    · exact Or.inl hused
    · exact Or.inr (Or.inl hres)
  · obtain ⟨B, hB, hrep⟩ := hgoes.rep
    obtain ⟨_, rfl⟩ := Model.exec_one_iff.mp hB
    have hctl := hgoes.ctl
    rw [hx]
    simp only [Kern.goOn]
    rcases osTCBInit_spec hrep prio with ⟨hfree, hy⟩ | ⟨i, ha, hgoes', hlock', hy⟩
    · rw [hy]
      have hmem : prio ∈ (A.after (.reserve prio)).reserved := List.mem_cons_self
      obtain ⟨hdoes, _⟩ := releasePrio_spec hrep hmem
      obtain ⟨C, hC, hrep'⟩ := hdoes.rep
      refine ⟨[.reserve prio, .release prio], C, ?_, exec_append.mpr ⟨_, hB, hC⟩, hrep',
        hdoes.ctl.trans hctl, hdoes.lock.trans hlock, Or.inr (Or.inr (Or.inl hfree))⟩
      exact List.forall_mem_cons.mpr ⟨trivial, List.forall_mem_singleton.mpr trivial⟩
    · obtain ⟨C, hC, hrep'⟩ := hgoes'.rep
      obtain ⟨_, rfl⟩ := Model.exec_one_iff.mp hC
      rw [hy]
      obtain ⟨hdoes, _⟩ := osTCBLink_spec hrep'
        (show Model.Allowed _ (.create i prio) from ⟨List.mem_cons_self, List.mem_cons_self⟩)
      obtain ⟨D, hD, hrep''⟩ := hdoes.rep
      refine ⟨[.reserve prio, .alloc i, .create i prio], D, ?_,
        exec_append.mpr ⟨_, hB, exec_append.mpr ⟨_, hC, hD⟩⟩, hrep'',
        hdoes.ctl.trans (hgoes'.ctl.trans hctl), hdoes.lock.trans (hlock'.trans hlock),
        Or.inr (Or.inr (Or.inr ⟨i, rfl⟩))⟩
      exact List.forall_mem_cons.mpr
        ⟨trivial, List.forall_mem_cons.mpr ⟨trivial, List.forall_mem_singleton.mpr trivial⟩⟩

/-- Tasks have been created, and multitasking has not started. -/
structure Kern.Boot (obj : ℕ → Obj) (k : Kern) (A : Model) : Prop where
  rep : k.Rep A
  stopped : k.OSRunning = false
  int : k.OSIntNesting = 0
  lock : k.OSLockNesting = 0
  phase : ∀ i ∈ A.list, (A.task i).phase = .run 0
  run : ∃ as, (∀ a ∈ as, a.Creates) ∧ exec Model.step (.init obj) as = some A
  buffer : A.buffer = (Model.init obj).buffer

namespace Kern.Boot

theorem init (hobj : ∀ e, (obj e).Created) : Boot obj (osInitVars obj) (.init obj) where
  rep := osInitVars_rep hobj
  stopped := rfl
  int := rfl
  lock := rfl
  phase := nofun
  run := ⟨[], nofun, rfl⟩
  buffer := rfl

theorem create (h : Boot obj k A) {prio : ℕ} (hle : prio ≤ OS_LOWEST_PRIO) :
    ∃ A', Boot obj (createTask prio k) A' ∧ (A.Idle → A'.Idle) ∧
      (A = .init obj → prio = OS_TASK_IDLE_PRIO → A'.Idle) := by
  obtain ⟨as, hcreates, has⟩ := h.run
  obtain ⟨as', A', hcreates', hexec, hrep, hctl, hlock, hwhy⟩ := createTask_spec h.rep h.int hle
  obtain ⟨hphase, hbuffer⟩ := Model.exec_creates hcreates' h.rep.ok h.phase hexec
  refine ⟨A', ?_, fun hidle => ?_, ?_⟩
  · exact {
      rep := hrep
      stopped := (congrArg Ctl.OSRunning hctl).trans h.stopped
      int := (congrArg Ctl.OSIntNesting hctl).trans h.int
      lock := hlock.trans h.lock
      phase := hphase
      run := ⟨as ++ as', List.forall_mem_append.mpr ⟨hcreates, hcreates'⟩,
        exec_append.mpr ⟨A, has, hexec⟩⟩
      buffer := hbuffer.trans h.buffer }
  · exact (exec_invariant' (I := fun B => B.Ok ∧ B.Idle)
      (fun _ _ _ ⟨hok, hidle⟩ hs => ⟨hok.step hs, hidle.step hok hs⟩) ⟨h.rep.ok, hidle⟩ hexec).2
  · rintro rfl rfl
    -- nothing can be wrong with the first task
    rcases hwhy with ⟨j, hj, _⟩ | hres | hfree | ⟨i, rfl⟩
    · cases hj
    · cases hres
    · cases hfree
    · obtain ⟨B, hB, hexec⟩ := exec_cons.mp hexec
      obtain ⟨C, hC, hexec⟩ := exec_cons.mp hexec
      obtain ⟨_, rfl⟩ := Model.exec_one_iff.mp hexec
      obtain ⟨_, rfl⟩ := Model.step_eq_some.mp hB
      obtain ⟨_, rfl⟩ := Model.step_eq_some.mp hC
      exact ⟨i, rfl, Model.create_task_self⟩

theorem osInit (hobj : ∀ e, (obj e).Created) : ∃ A, Boot obj (Core.osInit obj) A ∧ A.Idle := by
  obtain ⟨A, hA, _, hidle⟩ := (init hobj).create
    (show OS_TASK_IDLE_PRIO ≤ OS_LOWEST_PRIO by decide)
  obtain ⟨A', hA', hidle', _⟩ := hA.create
    (show OS_TASK_STAT_PRIO ≤ OS_LOWEST_PRIO by decide)
  exact ⟨A', hA', hidle' (hidle rfl rfl)⟩

theorem creates (h : Boot obj k A) (hidle : A.Idle) {prios : List ℕ}
    (hprios : ∀ prio ∈ prios, prio < OS_TASK_IDLE_PRIO) :
    ∃ A', Boot obj (prios.foldl (fun k prio => createTask prio k) k) A' ∧ A'.Idle := by
  induction prios generalizing k A with
  | nil => exact ⟨A, h, hidle⟩
  | cons prio prios ih =>
      obtain ⟨hprio, hprios⟩ := List.forall_mem_cons.mp hprios
      obtain ⟨B, hB, hidle', _⟩ := h.create (Nat.le_of_lt hprio)
      exact ih hB (hidle' hidle) hprios

theorem osStart (h : Boot obj k A) (hidle : A.Idle) :
    ∃ k', Core.osStart k = some k' ∧ Machine.Inv ⟨k', fun _ => .run, none⟩ A := by
  obtain ⟨i, hi, hprio, hready, hleast⟩ := h.rep.osSchedNew hidle
  have hhigh : k.OSTCBPrioTbl (Core.osSchedNew k).OSPrioHighRdy = .tcb i := by
    rw [← hprio]
    exact h.rep.prioTbl_of hi
  unfold Core.osStart
  rw [h.stopped, if_neg Bool.false_ne_true]
  simp only
  rw [show (Core.osSchedNew k).OSTCBPrioTbl = k.OSTCBPrioTbl from rfl, hhigh]
  refine ⟨_, rfl, ?_⟩
  exact {
    rep := h.rep.congr rfl rfl rfl rfl rfl rfl rfl
    idle := hidle
    served := fun e _ j hj hl => by
      rw [Task.Listed, h.phase j hj] at hl
      cases hl
    run := rfl
    pc := fun j hj => by
      rw [h.phase j hj]
      rfl
    sections := {
      reserved := fun _ _ _ hp => by cases hp
      taken := fun _ _ _ hp => by cases hp
      pend := fun _ _ _ => rfl
      delete := fun _ _ _ _ hs => by cases hs
      stopped := fun j hj hs => by
        rw [h.phase j hj] at hs
        cases hs
      gone := fun hgone => absurd hi hgone }
    cur := fun _ => hi
    sync := fun j hj hj' => h.rep.ok.unique j hj i hi (hj'.trans hprio.symm)
    prioCur := hprio ▸ h.rep.ok.fresh i hi
    fresh := fun _ _ _ => ⟨i, hi, rfl, hprio, hready, hleast, Or.inl rfl⟩
    locked := fun hl => absurd h.lock (Nat.ne_of_gt hl)
    tick := fun c hc => by cases hc }

end Kern.Boot

/-! ### All runs -/

namespace Machine

variable {m m' : Machine} {prios : List ℕ} {es : List Event}

theorem start_inv (hobj : ∀ e, (obj e).Created)
    (hprios : ∀ prio ∈ prios, prio < OS_TASK_IDLE_PRIO) :
    ∃ m A, start obj prios = some m ∧ m.Inv A ∧
      (∃ as, (∀ a ∈ as, a.Creates) ∧ exec Model.step (.init obj) as = some A) ∧
      A.buffer = (Model.init obj).buffer ∧ ∀ i ∈ A.list, (A.task i).phase = .run 0 := by
  obtain ⟨B, hB, hidle⟩ := Kern.Boot.osInit hobj
  obtain ⟨A, hA, hidle'⟩ := hB.creates hidle hprios
  obtain ⟨k, hk, hinv⟩ := hA.osStart hidle'
  refine ⟨_, A, ?_, hinv, hA.run, hA.buffer, hA.phase⟩
  unfold start
  rw [hk]
  rfl

theorem enabled_of_step {ev : Event} (hs : m.step ev = some m') : m.Enabled ev := by
  by_contra hne
  rw [step, if_neg hne] at hs
  cases hs

/-- A run of the machine is a run of the model: every event is a list of steps. -/
def Simulates (m : Machine) (A : Model) (es : List Event) (m' : Machine) (A' : Model) : Prop :=
  Simulated step Model.step Inv (fun m A ev as => m.Acts A as ev) m A es m' A'

theorem Inv.of_run (h : m.Inv A) (hC : Along Machine.step Contract m es)
    (hes : exec Machine.step m es = some m') : ∃ A', m.Simulates A es m' A' := by
  refine exec_simulates (fun m A ev m' h hc hs => ?_) h hC hes
  obtain ⟨m'', as, A', hs', hacts, hexec, hinv⟩ := h.step (enabled_of_step hs) hc
  obtain rfl := Option.some.inj (hs.symm.trans hs')
  exact ⟨as, A', hacts, hexec, hinv⟩

/-- The state after a run in which all callers keep their contract. -/
def reach (obj : ℕ → Obj) (prios : List ℕ) (es : List Event) : Option Machine := do
  let m ← start obj prios
  if Along step Contract m es then exec step m es else none

/-- The states that the machine gets into. -/
def Reachable (m : Machine) : Prop :=
  ∃ obj prios es, (∀ e, (obj e).Created) ∧ (∀ prio ∈ prios, prio < OS_TASK_IDLE_PRIO) ∧
    reach obj prios es = some m

theorem reach_simulates (hobj : ∀ e, (obj e).Created)
    (hprios : ∀ prio ∈ prios, prio < OS_TASK_IDLE_PRIO) (h : reach obj prios es = some m) :
    ∃ m₀ as A₀ A, start obj prios = some m₀ ∧ (∀ a ∈ as, a.Creates) ∧
      exec Model.step (.init obj) as = some A₀ ∧ m₀.Simulates A₀ es m A := by
  obtain ⟨m₀, A₀, hm₀, hinv, ⟨as, hcreates, has⟩, _⟩ := start_inv hobj hprios
  unfold reach at h
  rw [hm₀, Option.bind_eq_bind, Option.bind_some] at h
  split at h
  · rename_i hC
    obtain ⟨A, hA⟩ := hinv.of_run hC h
    exact ⟨m₀, as, A₀, A, hm₀, hcreates, has, hA⟩
  · cases h

theorem reach_inv (hobj : ∀ e, (obj e).Created)
    (hprios : ∀ prio ∈ prios, prio < OS_TASK_IDLE_PRIO) (h : reach obj prios es = some m) :
    ∃ as A, exec Model.step (.init obj) as = some A ∧ m.Inv A := by
  obtain ⟨m₀, as₀, A₀, A, _, _, has₀, hsim⟩ := reach_simulates hobj hprios h
  obtain ⟨as, has⟩ := hsim.exec
  exact ⟨as₀ ++ as, A, exec_append.mpr ⟨A₀, has₀, has⟩, hsim.rel⟩

theorem Reachable.inv (h : m.Reachable) :
    ∃ A, m.Inv A ∧ A.tcbs.Perm (List.range (OS_MAX_TASKS + OS_N_SYS_TASKS)) := by
  obtain ⟨obj, prios, es, hobj, hprios, h⟩ := h
  obtain ⟨as, A, has, hA⟩ := reach_inv hobj hprios h
  have hperm := Model.perm_exec has
  rw [show (Model.init obj).tcbs = List.range (OS_MAX_TASKS + OS_N_SYS_TASKS) from
    List.append_nil _] at hperm
  exact ⟨A, hA, hperm⟩

theorem exists_reachable (obj : ℕ → Obj) (prios : List ℕ) (es : List Event) (p : Machine → Prop)
    [DecidablePred p] (hobj : ∀ e, (obj e).Created)
    (hprios : ∀ prio ∈ prios, prio < OS_TASK_IDLE_PRIO)
    (h : (reach obj prios es).any (fun m => decide (p m)) = true) :
    ∃ m, reach obj prios es = some m ∧ m.Reachable ∧ p m := by
  obtain ⟨m, hm, hp⟩ := (Option.any_eq_true _ _).mp h
  exact ⟨m, hm, ⟨obj, prios, es, hobj, hprios, hm⟩, of_decide_eq_true hp⟩

end Machine

end Stm32Templet.Core
