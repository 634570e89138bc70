import Mathlib.Data.List.FinRange
import Stm32Templet.Lib.Printf
import Stm32Templet.Sys.Blocks
import Stm32Templet.Sys.Loop

/-! # The handler of the test messages

`MsgTest_ModuleHandle0` of `Module/src/msg_test_module.c` reports the state of the system on
the serial line.  It formats its lines into one small block; a second one takes the results of
`OSQQuery` and then, after it was put back and taken again, those of `OSMemQuery`.  Each of the
three calls of `MEM_Get` may find the pool empty.

Every line fits into a block (`Text.length_format`): `%d` prints a number of 32 bits with its
sign, and the difference of two 16-bit counts in the longest line.  The handler is therefore
safe for `blockSpec` (`safe_msgTest`), and accounts for its blocks whatever the other tasks
do. -/

namespace Stm32Templet.Sys

open Memory Os Tasks Atomic Runs Printf

/-! ### The lines -/

/-- The calls of `sprintf`, with their arguments. -/
inductive Text where
  | osTime (data32 : UInt32)
  | osCPUUsage (para1 : UInt16)
  | message (i : Fin TASK_NUM) (OSQSize OSNMsgs : UInt16)
  | mem (OSNFree : UInt32)
  | memBig (OSNFree : UInt32)

def Text.fmt : Text → String
  | osTime _ => "OSTime:%d\r\n"
  | osCPUUsage _ => "OSCPUUsage:%d\r\n"
  | message _ _ _ => "Message:Task=%d,Num=%d\r\n"
  | mem _ => "Mem:Num=%d\r\n"
  | memBig _ => "MemBig:Num=%d\r\n"

/-- The arguments as `int`s. -/
def Text.args : Text → List ℤ
  | osTime data32 => [data32.toInt32.toInt]
  | osCPUUsage para1 => [para1.toNat]
  | message i OSQSize OSNMsgs => [i.val, (OSQSize.toNat : ℤ) - OSNMsgs.toNat]
  | mem OSNFree => [OSNFree.toInt32.toInt]
  | memBig OSNFree => [OSNFree.toInt32.toInt]

/-- What is written, without the terminating zero. -/
def Text.format (t : Text) : List UInt8 := ascii (sprintf t.fmt.toList t.args)

/-! ### The handler -/

/-- `sprintf`: the text goes to `p`, with a zero behind it. -/
def putString : List UInt8 → ℕ → Prog blockSig Unit
  | [], p => .act (.inl (.store 1 p 0)) fun _ => .ret ()
  | c :: text, p => .act (.inl (.store 1 p c.toNat)) fun _ => putString text (p + 1)

/-- The loop of `strlen`, with `n` bytes counted. -/
def strlenFrom : ℕ → ℕ → ℕ → Prog blockSig ℕ
  | 0, _, n => .ret n
  | fuel + 1, s, n =>
      .act (.inl (.load 1 s)) fun (c : ℕ) =>
        if c = 0 then .ret n else strlenFrom fuel (s + 1) (n + 1)

/-- `strlen`, within the address space. -/
def strlen (s : ℕ) : Prog blockSig ℕ := strlenFrom (256 ^ 4) s 0

/-- What `Usart_ModuleSetData` does to memory: the bytes go to the transmit ring until that is
full. -/
def usartModuleSetData : ℕ → ℕ → Prog blockSig Unit
  | _, 0 => .ret ()
  | pData, size + 1 =>
      .act (.inl (.load 1 pData)) fun (b : ℕ) =>
        .act (.inr (.storeSend (UInt8.ofNat b))) fun (full : Bool) =>
          if full then .ret () else usartModuleSetData (pData + 1) size

/-- A line is formatted into `pBuf` and sent. -/
def print (pBuf : ℕ) (t : Text) : Prog blockSig Unit := do
  putString t.format pBuf
  let n ← strlen pBuf
  usartModuleSetData pBuf (UInt16.ofNat n).toNat

/-- `OSMemQuery`. -/
def queryMem (p : Partition) (p_mem_data : ℕ) : Prog blockSig ℕ :=
  .act (.inr (.osMemQuery p p_mem_data)) fun _ =>
    .act (.inl (.load 4 (p_mem_data + 12))) fun (nBlks : ℕ) =>
      .act (.inl (.load 4 (p_mem_data + 16))) fun (nFree : ℕ) =>
        .act (.inl (.store 4 (p_mem_data + 20) (nBlks + 256 ^ 4 - nFree))) fun _ =>
          .ret OS_ERR_NONE

/-- An iteration of the loop over the queues. -/
def reportQueue (pBuf pData : ℕ) (i : Fin TASK_NUM) : Prog blockSig Unit :=
  .act (.inr (.osQQuery i pData)) fun (err : ℕ) =>
    if err = OS_ERR_NONE then
      .act (.inl (.load 2 (pData + 6))) fun (size : ℕ) =>
        .act (.inl (.load 2 (pData + 4))) fun (nMsgs : ℕ) =>
          print pBuf (.message i (UInt16.ofNat size) (UInt16.ofNat nMsgs))
    else .ret ()

def reportQueues (pBuf pData : ℕ) : List (Fin TASK_NUM) → Prog blockSig Unit
  | [] => .ret ()
  | i :: is => do
      reportQueue pBuf pData i
      reportQueues pBuf pData is

/-- The report on a partition. -/
def reportMem (text : UInt32 → Text) (p : Partition) (pBuf pData : ℕ) : Prog blockSig Unit := do
  let err ← queryMem p pData
  if err = OS_ERR_NONE then
    .act (.inl (.load 4 (pData + 16))) fun (nFree : ℕ) => print pBuf (text (UInt32.ofNat nFree))
  else .ret ()

/-- `pData=MEM_Get(size,&err); if(pData){ body; MEM_Put(pData); }`. -/
def withData (L : Layout) (size : ℕ) (body : ℕ → Prog blockSig Unit) : Prog blockSig Unit := do
  let r ← (memGet size).inl
  if r.1 = 0 then return ()
  else do
    body r.1
    let _ ← (memPut L r.1).inl
    return ()

/-- The handler behind the first `MEM_Get`. -/
def report (L : Layout) (pMessage pBuf : ℕ) : Prog blockSig ℕ :=
  .act (.inl (.load 4 (pMessage + HEAD_SIZE))) fun (data32 : ℕ) => do
    print pBuf (.osTime (UInt32.ofNat data32))
    .act (.inl (.load 2 (pMessage + 4))) fun (para1 : ℕ) => do
      print pBuf (.osCPUUsage (UInt16.ofNat para1))
      withData L OS_Q_DATA_SIZE fun pData =>
        reportQueues pBuf pData (List.finRange TASK_NUM)
      withData L OS_MEM_DATA_SIZE fun pData => do
        reportMem .mem .Mem pBuf pData
        reportMem .memBig .MemBig pBuf pData
      let _ ← (memPut L pBuf).inl
      return 1

/-- `MsgTest_ModuleHandle0`. -/
def msgTestModuleHandle0 (L : Layout) (pMessage : ℕ) : Prog blockSig ℕ :=
  .act (.inl (.load 2 pMessage)) fun (message : ℕ) =>
    if message = MESSAGE_MSG_TEST then do
      let r ← (memGet MEM_SIZE).inl
      if r.1 = 0 then return 1 else report L pMessage r.1
    else .ret 0

/-! ### The lines fit -/

theorem natAbs_sub_lt (a b : UInt16) : ((a.toNat : ℤ) - b.toNat).natAbs < 10 ^ 5 := by
  have ha := a.toNat_lt
  have hb := b.toNat_lt
  omega

theorem natAbs_toInt_lt (i : Int32) : i.toInt.natAbs < 10 ^ 10 := by
  have hlt := i.toInt_lt
  have hle := i.le_toInt
  omega

/-- A line fits if its format does, together with what the conversions write. -/
theorem length_line_le (fmt : String) {args : List ℤ} {k : ℕ}
    (hargs : (args.map fun i => (decimal i).length).sum ≤ k)
    (hfmt : fmt.toList.length + k < MEM_SIZE) :
    (ascii (sprintf fmt.toList args)).length + 1 ≤ MEM_SIZE := by
  have hlen := length_sprintf_le fmt.toList args
  rw [length_ascii]
  omega

/-- Every line fits into a block, with its terminating zero. -/
theorem Text.length_format (t : Text) : t.format.length + 1 ≤ MEM_SIZE := by
  have h32 : ∀ i : Int32, (decimal i.toInt).length ≤ 11 := fun i =>
    length_decimal_le (by decide) (natAbs_toInt_lt i)
  cases t with
  | osTime data32 => exact length_line_le "OSTime:%d\r\n" (h32 _) (by decide)
  | osCPUUsage para1 =>
      have hnum : (decimal para1.toNat).length ≤ 5 :=
        length_decimal_natCast_le (by decide) (para1.toNat_lt.trans (by decide))
      exact length_line_le "OSCPUUsage:%d\r\n" hnum (by decide)
  | message i OSQSize OSNMsgs =>
      -- the longest line, up to `"Message:Task=2,Num=-65535"` and the end of the line
      have hi : (decimal i.val).length ≤ 1 :=
        length_decimal_natCast_le (by decide) (i.isLt.trans (by decide))
      have hnum := length_decimal_le (by decide) (natAbs_sub_lt OSQSize OSNMsgs)
      exact length_line_le "Message:Task=%d,Num=%d\r\n" (Nat.add_le_add hi hnum) (by decide)
  | mem OSNFree => exact length_line_le "Mem:Num=%d\r\n" (h32 _) (by decide)
  | memBig OSNFree => exact length_line_le "MemBig:Num=%d\r\n" (h32 _) (by decide)

/-! ### The handler is safe -/

variable {L : Layout} {arg : ℕ → Prop} {v : Hold} {b pBuf pData : ℕ}

theorem safe_putString (text : List UInt8) : ∀ (p : ℕ) (v : Hold), b ∈ v.got →
    L.Within b p (text.length + 1) →
    Safe (blockSpec L arg) (fun _ v' => v'.got = v.got ∧ v'.mem (p + text.length) = 0)
      (putString text p) v := by
  induction text with
  | nil =>
      intro p v hb hw
      exact safe_storeBlock hb hw ⟨rfl, Function.update_self p _ v.mem⟩
  | cons c text ih =>
      intro p v hb hw
      rw [List.length_cons] at hw
      apply safe_storeBlock hb (hw.initial (i := 0) (by omega))
      refine (ih (p + 1) { v with mem := store v.mem 1 p c.toNat } hb
        (hw.initial (by omega))).mono ?_
      intro _ v' h
      obtain ⟨hgot, hzero⟩ := h
      refine ⟨hgot, ?_⟩
      rwa [List.length_cons, Nat.add_comm text.length 1, ← Nat.add_assoc]

theorem safe_strlenFrom (hb : b ∈ v.got) (fuel : ℕ) : ∀ s n k : ℕ, k < fuel →
    v.mem (s + k) = 0 → L.Within b s (k + 1) →
    Safe (blockSpec L arg) (fun r v' => v' = v ∧ n ≤ r ∧ r ≤ n + k ∧ v.mem (s + (r - n)) = 0)
      (strlenFrom fuel s n) v := by
  induction fuel with
  | zero => exact fun _ _ _ hk => nomatch hk
  | succ fuel ih =>
      intro s n k hk hzero hw
      apply safe_loadBlock hb (hw.initial (i := 0) (by omega))
      show Safe _ _ (if load v.mem 1 s = 0 then _ else _) v
      rw [load_one]
      by_cases hend : (v.mem s).toNat = 0
      · rw [if_pos hend]
        refine ⟨rfl, le_rfl, Nat.le_add_right n k, ?_⟩
        rw [Nat.sub_self]
        exact UInt8.toNat_inj.mp hend
      · rw [if_neg hend]
        obtain ⟨j, rfl⟩ : ∃ j, k = j + 1 := by
          refine Nat.exists_eq_succ_of_ne_zero fun hk0 => hend ?_
          rw [hk0, Nat.add_zero] at hzero
          rw [hzero]
          rfl
        have hzero' : v.mem (s + 1 + j) = 0 := by
          rwa [Nat.add_assoc, Nat.add_comm 1 j]
        refine (ih (s + 1) (n + 1) j (by omega) hzero' (hw.initial (by omega))).mono ?_
        intro r v' h
        obtain ⟨hv, hle, hle', hz⟩ := h
        refine ⟨hv, by omega, by omega, ?_⟩
        rwa [show s + (r - n) = s + 1 + (r - (n + 1)) by omega]

theorem safe_strlen (hb : b ∈ v.got) (hblock : L.Block .Mem b) {k : ℕ} (hk : k < MEM_SIZE)
    (hzero : v.mem (b + k) = 0) :
    Safe (blockSpec L arg) (fun n v' => v' = v ∧ n ≤ k ∧ v.mem (b + n) = 0) (strlen b) v := by
  have hw : L.Within b (b + 0) (k + 1) := hblock.within_field (by omega)
  have hfuel : MEM_SIZE < 256 ^ 4 := by decide
  refine (safe_strlenFrom hb _ b 0 k (by omega) hzero hw).mono ?_
  intro n v' h
  obtain ⟨hv, _, hle, hz⟩ := h
  exact ⟨hv, by omega, by rwa [Nat.sub_zero] at hz⟩

theorem safe_usartModuleSetData (hb : b ∈ v.got) (size : ℕ) : ∀ pData,
    L.Within b pData size →
    Safe (blockSpec L arg) (fun _ v' => v' = v) (usartModuleSetData pData size) v := by
  induction size with
  | zero => exact fun _ _ => rfl
  | succ size ih =>
      intro pData hw
      apply safe_loadBlock hb (hw.initial (i := 0) (by omega))
      refine ⟨trivial, ?_⟩
      intro full v' hv
      rw [show v' = v from hv]
      cases full with
      | true => exact rfl
      | false => exact ih (pData + 1) (hw.initial (by omega))

theorem safe_print (hb : pBuf ∈ v.got) (hblock : L.Block .Mem pBuf) (t : Text) :
    Safe (blockSpec L arg) (fun _ v' => v'.got = v.got) (print pBuf t) v := by
  have hfit := t.length_format
  have hw : L.Within pBuf (pBuf + 0) (t.format.length + 1) := hblock.within_field (by omega)
  refine (safe_putString t.format pBuf v hb hw).bind ?_
  intro _ v₁ h₁
  obtain ⟨hgot, hzero⟩ := h₁
  have hb₁ : pBuf ∈ v₁.got := hgot ▸ hb
  refine (safe_strlen hb₁ hblock (by omega) hzero).bind ?_
  rintro n _ ⟨rfl, hn, _⟩
  have hsize : (UInt16.ofNat n).toNat ≤ n := Nat.mod_le n _
  have hw' : L.Within pBuf (pBuf + 0) (UInt16.ofNat n).toNat := hblock.within_field (by omega)
  refine (safe_usartModuleSetData hb₁ _ pBuf hw').mono ?_
  rintro _ _ rfl
  exact hgot

theorem safe_queryMem (hb : pData ∈ v.got) (hblock : L.Block .Mem pData) (p : Partition) :
    Safe (blockSpec L arg) (fun _ v' => v'.got = v.got) (queryMem p pData) v := by
  refine ⟨⟨pData, hb, hblock.within_field (i := 0) (by decide)⟩, ?_⟩
  intro _ v' hgot
  have hb' : pData ∈ v'.got := hgot ▸ hb
  apply safe_loadBlock hb' (hblock.within_field (by decide))
  apply safe_loadBlock hb' (hblock.within_field (by decide))
  exact safe_storeBlock hb' (hblock.within_field (by decide)) hgot

/-- The two blocks that the handler has while it reports. -/
structure Reporting (L : Layout) (pBuf pData : ℕ) (v : Hold) : Prop where
  buf : L.Block .Mem pBuf
  data : L.Block .Mem pData
  got : v.got = [pData, pBuf]

theorem Reporting.buf_mem (h : Reporting L pBuf pData v) : pBuf ∈ v.got := by
  rw [h.got]
  exact List.mem_cons_of_mem _ List.mem_cons_self

theorem Reporting.data_mem (h : Reporting L pBuf pData v) : pData ∈ v.got := by
  rw [h.got]
  exact List.mem_cons_self

theorem Reporting.print (h : Reporting L pBuf pData v) (t : Text) :
    Safe (blockSpec L arg) (fun _ v' => Reporting L pBuf pData v') (print pBuf t) v :=
  (safe_print h.buf_mem h.buf t).mono fun _ _ hgot => ⟨h.buf, h.data, hgot.trans h.got⟩

theorem safe_reportQueue (h : Reporting L pBuf pData v) (i : Fin TASK_NUM) :
    Safe (blockSpec L arg) (fun _ v' => Reporting L pBuf pData v')
      (reportQueue pBuf pData i) v := by
  refine ⟨⟨pData, h.data_mem, h.data.within_field (i := 0) (by decide)⟩, ?_⟩
  intro (err : ℕ) v' hgot
  have h' : Reporting L pBuf pData v' := ⟨h.buf, h.data, Eq.trans hgot h.got⟩
  show Safe _ _ (if err = OS_ERR_NONE then _ else _) v'
  by_cases herr : err = OS_ERR_NONE
  · rw [if_pos herr]
    apply safe_loadBlock h'.data_mem (h.data.within_field (by decide))
    apply safe_loadBlock h'.data_mem (h.data.within_field (by decide))
    exact h'.print _
  · rw [if_neg herr]
    exact h'

theorem safe_reportQueues (is : List (Fin TASK_NUM)) : ∀ v, Reporting L pBuf pData v →
    Safe (blockSpec L arg) (fun _ v' => Reporting L pBuf pData v')
      (reportQueues pBuf pData is) v := by
  induction is with
  | nil => exact fun _ h => h
  | cons i is ih => exact fun v h => (safe_reportQueue h i).bind fun _ v' h' => ih v' h'

theorem safe_reportMem (h : Reporting L pBuf pData v) (text : UInt32 → Text) (p : Partition) :
    Safe (blockSpec L arg) (fun _ v' => Reporting L pBuf pData v')
      (reportMem text p pBuf pData) v := by
  refine (safe_queryMem h.data_mem h.data p).bind ?_
  intro err v' hgot
  have h' : Reporting L pBuf pData v' := ⟨h.buf, h.data, hgot.trans h.got⟩
  by_cases herr : err = OS_ERR_NONE
  · rw [if_pos herr]
    apply safe_loadBlock h'.data_mem (h.data.within_field (by decide))
    exact h'.print _
  · rw [if_neg herr]
    exact h'

/-- The second block is put back if there was one. -/
theorem safe_withData (hgot : v.got = [pBuf]) (hbuf : L.Block .Mem pBuf) {size : ℕ}
    (hsize : size ≤ MEM_SIZE) {body : ℕ → Prog blockSig Unit}
    (hbody : ∀ pData v', Reporting L pBuf pData v' →
      Safe (blockSpec L arg) (fun _ v'' => Reporting L pBuf pData v'') (body pData) v') :
    Safe (blockSpec L arg) (fun _ v' => v'.got = [pBuf]) (withData L size body) v := by
  refine safe_getBlock hsize hgot (f := fun pData => do
    body pData
    let _ ← (memPut L pData).inl
    return ()) ?_
  intro pData v₁ hdata hgot₁
  rw [hgot] at hgot₁
  refine (hbody pData v₁ ⟨hbuf, hdata, hgot₁⟩).bind ?_
  intro _ v₂ h
  exact (safe_putBlock h.got hdata).bind fun _ _ hgot₂ => hgot₂

/-- `sizeof(Message_sut)`: the head and a union of eight bytes. -/
def MESSAGE_SIZE : ℕ := HEAD_SIZE + 8

/-- The bytes of the message. -/
def InMessage (pMessage a : ℕ) : Prop := pMessage ≤ a ∧ a < pMessage + MESSAGE_SIZE

theorem safe_report {pMessage : ℕ} (hgot : v.got = [pBuf]) (hbuf : L.Block .Mem pBuf) :
    Safe (blockSpec L (InMessage pMessage)) (fun _ v' => v'.got = []) (report L pMessage pBuf)
      v := by
  have harg : ∀ {i n : ℕ}, i + n ≤ MESSAGE_SIZE →
      ∀ j < n, InMessage pMessage (pMessage + i + j) :=
    fun hn j hj => ⟨by omega, by omega⟩
  have hmem : ∀ {w : Hold}, w.got = [pBuf] → pBuf ∈ w.got := fun hw =>
    hw ▸ List.mem_cons_self
  apply safe_loadArg (harg (by decide))
  intro data32
  refine (safe_print (hmem hgot) hbuf _).bind ?_
  intro _ v₁ h₁
  have hgot₁ := h₁.trans hgot
  apply safe_loadArg (harg (by decide))
  intro para1
  refine (safe_print (hmem hgot₁) hbuf _).bind ?_
  intro _ v₂ h₂
  have hgot₂ := h₂.trans hgot₁
  refine (safe_withData hgot₂ hbuf (by decide) fun pData v' h =>
    safe_reportQueues _ v' h).bind ?_
  intro _ v₃ hgot₃
  refine (safe_withData hgot₃ hbuf (by decide) fun pData v' h => ?_).bind ?_
  · exact (safe_reportMem h .mem .Mem).bind fun _ _ h' => safe_reportMem h' .memBig .MemBig
  intro _ v₄ hgot₄
  exact (safe_putBlock hgot₄ hbuf).bind fun _ _ hgot₅ => hgot₅

/-- Whichever of its calls of `MEM_Get` fail, the handler stays in its blocks and ends without
one. -/
theorem safe_msgTest (L : Layout) (pMessage : ℕ) (m : Mem) :
    Safe (blockSpec L (InMessage pMessage)) (fun _ v => v.got = [])
      (msgTestModuleHandle0 L pMessage) ⟨[], m⟩ := by
  refine safe_loadArg (fun j hj => ⟨by omega, by unfold MESSAGE_SIZE HEAD_SIZE; omega⟩) ?_
  intro message
  by_cases hmessage : message = MESSAGE_MSG_TEST
  · rw [if_pos hmessage]
    refine safe_getBlock le_rfl (f := report L pMessage) ?_ ?_
    · exact rfl
    · exact fun pBuf v' hbuf hgot => safe_report hgot hbuf
  · rw [if_neg hmessage]
    exact rfl

/-- For every message and every state of the partitions and the queues, and however the other
tasks take and put back blocks meanwhile: the handler accounts for its blocks, and whatever it
formats or queries fits into one of them. -/
theorem msgTest_accounted (L : Layout) (event : Fin TASK_NUM → OsEvent) {k : Kernel}
    {free : Partition → List ℕ} (hk : k.Lists L free) (pMessage : ℕ) {es : List Turn}
    {s : Routine ℕ}
    (h : exec (Routine.step L event) (Routine.start (msgTestModuleHandle0 L pMessage) k) es =
      some s) :
    Accounted L (InMessage pMessage) s ∧ (∀ t : Text, t.format.length + 1 ≤ MEM_SIZE) ∧
      OS_Q_DATA_SIZE ≤ MEM_SIZE ∧ OS_MEM_DATA_SIZE ≤ MEM_SIZE :=
  ⟨accounted_of_safe (safe_msgTest L pMessage k.mem) hk h, Text.length_format, by decide,
    by decide⟩

/-- A test message at address `4096`, with ones in its other bytes. -/
def testMessage : Mem := fun a => if a = 4096 then 2 else if a = 4097 then 0 else 255

/-- Other tasks take what is left in the pool before the handler asks for its second block, and
one of them puts a block back before it asks for the third. -/
def emptiedMeanwhile : List Turn :=
  [.own false, .own false] ++ List.replicate 29 (.other (.osMemGet .Mem)) ++
    List.replicate 123 (.own false) ++ [.other (.osMemPut .Mem (536870912 + MEM_SIZE))] ++
    List.replicate 121 (.own false)

/-- The second `MEM_Get` fails, and the handler runs to its end. -/
theorem msgTest_accounted_preempted :
    ∃ s, exec (Routine.step sideBySide fun _ => ⟨OS_EVENT_TYPE_Q, 0, fun _ => 0⟩)
      (Routine.start (msgTestModuleHandle0 sideBySide 4096)
        (sysStart sideBySide testMessage fun _ _ => 0)) emptiedMeanwhile = some s ∧
      s.prog matches .ret _ ∧ Accounted sideBySide (InMessage 4096) s := by
  have hrun : (exec (Routine.step sideBySide fun _ => ⟨OS_EVENT_TYPE_Q, 0, fun _ => 0⟩)
      (Routine.start (msgTestModuleHandle0 sideBySide 4096)
        (sysStart sideBySide testMessage fun _ _ => 0)) emptiedMeanwhile).any fun s =>
      s.prog matches .ret _ := by decide +kernel
  obtain ⟨s, hs, hend⟩ := (Option.any_eq_true ..).mp hrun
  exact ⟨s, hs, hend, (msgTest_accounted sideBySide _ (lists_sysStart _ _ _) 4096 hs).1⟩

end Stm32Templet.Sys
