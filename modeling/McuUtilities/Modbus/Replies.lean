import McuUtilities.Modbus.Handlers
import McuUtilities.Modbus.RtuRuns

/-!
# Every reply of a slave is a frame for its request

Over the handler table of the stack each request that is not broadcast is answered by one frame. The
frame carries the address of the slave and its CRC, fits the line, and has the function code of the
request, or this code with the error bit and an exception behind it. So what a slave sends along a run
is one such frame for each request it has heard.
-/

namespace McuUtilities.Modbus

variable {σ : Type} {ucMBAddress : UInt8}

/-- A frame that is served and answered. -/
def Replied (ucMBAddress : UInt8) (frame : List UInt8) : Prop :=
  Accepts ucMBAddress frame ∧ frame.getD 0 0 ≠ mbAddressBroadcast

instance (ucMBAddress : UInt8) (frame : List UInt8) : Decidable (Replied ucMBAddress frame) :=
  inferInstanceAs (Decidable (_ ∧ _))

/-- A frame that answers a request. -/
structure Answers (ucMBAddress : UInt8) (request reply : List UInt8) : Prop where
  length : 4 ≤ reply.length ∧ reply.length ≤ 256
  crc : bitwiseCrc16 reply = 0
  address : reply.getD 0 0 = ucMBAddress
  code : reply.getD 1 0 = request.getD 1 0 ∨
    reply.length = 5 ∧ reply.getD 1 0 = request.getD 1 0 ||| 0x80 ∧ reply.getD 2 0 ≠ 0

/-! ## The handlers that are found -/

/-- A table of proper handlers. -/
def ProperTable (es : List (FuncEntry σ)) : Prop :=
  ∀ e ∈ es, ∀ h, e.pxHandler = some h → Proper e.ucFunctionCode h.run

theorem ProperTable.find {es : List (FuncEntry σ)} {ucFunctionCode : UInt8} {h : FuncHandler σ}
    (hes : ProperTable es) (hfind : findHandler ucFunctionCode es = some h) :
    Proper ucFunctionCode h.run := by
  induction es with
  | nil => cases hfind
  | cons e es ih =>
    rw [findHandler] at hfind
    split at hfind
    · cases hfind
    · split at hfind
      · next hcode => exact hcode ▸ hes e List.mem_cons_self h hfind
      · exact ih (fun e he => hes e (List.mem_cons_of_mem _ he)) hfind

theorem properTable_entry {ucFunctionCode : UInt8} {run : List UInt8 → Nat → σ → Handled σ}
    {es : List (FuncEntry σ)} (h : Proper ucFunctionCode run) (hes : ProperTable es) :
    ProperTable (h.entry :: es) := by
  intro e he
  rcases List.mem_cons.mp he with rfl | he
  · intro h' hh'
    cases hh'
    exact h
  · exact hes e he

theorem properTable_xFuncHandlers {modebusReadRegList modebusRwRegList : List (ModbusReg σ)}
    {id : SlaveId} : ProperTable (xFuncHandlers modebusReadRegList modebusRwRegList id) := by
  have hfree : ProperTable (List.replicate 6 (⟨0, none⟩ : FuncEntry σ)) := by
    intro e he h hh
    rw [List.eq_of_mem_replicate he] at hh
    cases hh
  unfold xFuncHandlers
  iterate 10 refine properTable_entry _ ?_
  exact hfree

/-! ## What is answered -/

theorem code_ne_zero {e : MbException} (h : e ≠ .none) : e.code ≠ 0 := by
  cases e with
  | none => exact absurd rfl h
  | _ => decide

theorem getD_take_zero {f : List UInt8} {n : Nat} (hn : 1 ≤ n) : (f.take n).getD 0 0 = f.getD 0 0 := by
  obtain ⟨n, rfl⟩ := Nat.exists_eq_succ_of_ne_zero (Nat.ne_of_gt hn)
  cases f <;> rfl

/-- A PDU that has a function code and fits the line. -/
theorem answers_adu {request pdu : List UInt8} (hpos : 1 ≤ pdu.length) (hle : pdu.length ≤ 253)
    (hcode : pdu.getD 0 0 = request.getD 1 0 ∨
      pdu.length = 2 ∧ pdu.getD 0 0 = request.getD 1 0 ||| 0x80 ∧ pdu.getD 1 0 ≠ 0) :
    Answers ucMBAddress request (adu ucMBAddress pdu) := by
  have hlen := @length_adu ucMBAddress pdu
  refine ⟨⟨by omega, by omega⟩, bitwiseCrc16_append_lowFirst, rfl, ?_⟩
  obtain ⟨c, pdu, rfl⟩ := List.exists_cons_of_length_pos hpos
  rcases hcode with hcode | ⟨htwo, hcode, hexception⟩
  · exact .inl hcode
  · refine .inr ⟨by omega, hcode, ?_⟩
    obtain ⟨e, pdu, rfl⟩ := List.exists_cons_of_length_pos (l := pdu) (by
      rw [List.length_cons] at htwo
      omega)
    exact hexception

section serve
variable {es : List (FuncEntry σ)} {srv : Server σ} {request : List UInt8}

/-- The PDU that is executed is the request without its address and CRC. -/
theorem slice_request {mem : Nat → UInt8} (hlen : 2 ≤ request.length) :
    (slice (store mem 0 request) 1 255).getD 0 0 = request.getD 1 0 := by
  have hone := @store_add _ mem 0 request 1 hlen
  rw [slice_succ, List.getD_cons_zero]
  rw [Nat.zero_add] at hone
  rw [hone, List.getD_eq_getElem?_getD, List.getElem?_eq_getElem hlen, Option.getD_some]

/-- A request that is not broadcast is answered. -/
theorem serve_replied (hes : ProperTable es) (h : Replied ucMBAddress request) :
    ∃ reply, Answers ucMBAddress request reply ∧
      (srv.serve ucMBAddress es request).out = srv.out ++ reply := by
  obtain ⟨hacc, hunicast⟩ := h
  rw [Server.serve, if_pos hacc]
  dsimp only
  rw [if_neg hunicast]
  refine ⟨_, ?_, rfl⟩
  obtain ⟨hmin, hmax, -, -⟩ := hacc
  rw [List.take_of_length_le hmax]
  have hcode := @slice_request request srv.mem (by omega)
  have hlen : (slice (store srv.mem 0 request) 1 255).length = 255 := length_slice
  generalize slice (store srv.mem 0 request) 1 255 = f at hcode hlen ⊢
  have hcall : (callHandler es f (request.length - 3) srv.app).frame.length = 255 ∧
      (callHandler es f (request.length - 3) srv.app).usLen ≤ 253 ∧
      1 ≤ (callHandler es f (request.length - 3) srv.app).usLen ∧
      (callHandler es f (request.length - 3) srv.app).frame.getD 0 0 = f.getD 0 0 := by
    unfold callHandler
    split
    · exact ⟨hlen, by dsimp only; omega, by dsimp only; omega, rfl⟩
    · next h hfind =>
      have hproper := hes.find hfind
      exact ⟨hproper.length_frame f _ _ hlen, hproper.usLen_le f _ _ (by omega),
        hproper.usLen_pos f _ _ (by omega), hproper.code f _ _ hlen rfl⟩
  rw [execute]
  rw [if_neg hunicast]
  generalize callHandler es f (request.length - 3) srv.app = r at hcall
  obtain ⟨hframe, hle, hpos, hkept⟩ := hcall
  unfold Handled.answer
  split
  · refine answers_adu ?_ ?_ (.inl ?_)
    · rw [List.length_take]
      omega
    · rw [List.length_take]
      omega
    · rw [getD_take_zero hpos, hkept, hcode]
  · next hexception =>
    have hne := code_ne_zero hexception
    obtain ⟨a, rest, hcons⟩ := List.exists_cons_of_length_pos (l := r.frame) (by omega)
    obtain ⟨b, rest', hcons'⟩ := List.exists_cons_of_length_pos (l := rest) (by
      rw [hcons, List.length_cons] at hframe
      omega)
    subst hcons'
    dsimp only
    rw [hcons]
    refine answers_adu (by simp) (by simp) (.inr ⟨by simp, ?_, by simpa using hne⟩)
    rw [← hcode]
    rfl

theorem serve_not_replied (h : ¬ Replied ucMBAddress request) :
    (srv.serve ucMBAddress es request).out = srv.out := by
  rw [Server.serve]
  dsimp only
  by_cases hacc : Accepts ucMBAddress request
  · have hbroadcast : request.getD 0 0 = mbAddressBroadcast := by
      by_contra hne
      exact h ⟨hacc, hne⟩
    rw [if_pos hacc, if_pos hbroadcast]
  · rw [if_neg hacc]

/-- Serving requests answers those that are not broadcast, one after the other. -/
theorem serveAll_replies {requests : List (List UInt8)} (hes : ProperTable es) :
    ∃ replies, List.Forall₂ (Answers ucMBAddress) (requests.filter (Replied ucMBAddress ·)) replies ∧
      (srv.serveAll ucMBAddress es requests).out = srv.out ++ replies.flatten := by
  induction requests generalizing srv with
  | nil => exact ⟨[], .nil, (List.append_nil _).symm⟩
  | cons request requests ih =>
    obtain ⟨replies, hreplies, hout⟩ := @ih (srv.serve ucMBAddress es request)
    by_cases hreplied : Replied ucMBAddress request
    · obtain ⟨reply, hanswers, hserve⟩ := @serve_replied σ ucMBAddress es srv request hes hreplied
      refine ⟨reply :: replies, ?_, ?_⟩
      · rw [List.filter_cons_of_pos (by simpa using hreplied)]
        exact .cons hanswers hreplies
      · rw [List.flatten_cons, ← List.append_assoc, ← hserve]
        exact hout
    · refine ⟨replies, ?_, ?_⟩
      · rw [List.filter_cons_of_neg (by simpa using hreplied)]
        exact hreplies
      · rw [← @serve_not_replied σ ucMBAddress es srv request hreplied]
        exact hout

end serve

/-! ## Along a run -/

section run
variable {modebusReadRegList modebusRwRegList : List (ModbusReg σ)} {id : SlaveId}

/-- A slave with the handlers of the stack answers each request it has heard, unless it was broadcast,
by one frame: what it has sent is the beginning of these frames, and all of them once its main loop and
its transmitter have had their turns. -/
theorem rtuSlave_answers (mem : Nat → UInt8) (app : σ) (is : List Line)
    (hC : (rtuSlave ucMBAddress (xFuncHandlers modebusReadRegList modebusRwRegList id)).Along Disciplined
      (started mem app) is) :
    ∃ replies, List.Forall₂ (Answers ucMBAddress)
        ((heard none is).2.filter (Replied ucMBAddress ·)) replies ∧
      ∃ log s, (rtuSlave ucMBAddress (xFuncHandlers modebusReadRegList modebusRwRegList id)).run
          (started mem app) is = (log, .inl s) ∧ sent log <+: replies.flatten ∧
        ∃ log' t, (rtuSlave ucMBAddress (xFuncHandlers modebusReadRegList modebusRwRegList id)).run s
            turns = (log', .inl t) ∧
          sent log ++ sent log' = replies.flatten := by
  obtain ⟨replies, hreplies, hout⟩ := @serveAll_replies σ ucMBAddress
    (xFuncHandlers modebusReadRegList modebusRwRegList id) ⟨mem, app, []⟩ (heard none is).2
    properTable_xFuncHandlers
  obtain ⟨log, s, hrun, hfollows⟩ := follows_run (follows_started mem app) hC
  obtain ⟨log', t, hturns, hend, -⟩ := hfollows.turns
  have hpre := hfollows.out_prefix
  have hsent := hend.out
  rw [hout, List.nil_append] at hpre hsent
  exact ⟨replies, hreplies, log, s, hrun, hpre, log', t, hturns, hsent.symm⟩

/-- A slave that is asked for an input register. -/
theorem rtuSlave_answers_read : ∃ replies, List.Forall₂ (Answers 1)
      ((heard none (exchanges [adu 1 [4, 0, 0x10, 0, 1]])).2.filter (Replied 1 ·)) replies ∧
    ∃ log s, (rtuSlave 1 (xFuncHandlers adjacentEntries [] ⟨[], fits_noId⟩)).run
        (started (fun _ => 0) ()) (exchanges [adu 1 [4, 0, 0x10, 0, 1]]) = (log, .inl s) ∧
      sent log <+: replies.flatten ∧
      ∃ log' t, (rtuSlave 1 (xFuncHandlers adjacentEntries [] ⟨[], fits_noId⟩)).run s turns =
          (log', .inl t) ∧ sent log ++ sent log' = replies.flatten :=
  rtuSlave_answers (fun _ => 0) () _ (rtuSlave_exchanges _ _ fun frame hframe => by
    rw [List.mem_singleton.mp hframe]
    exact List.cons_ne_nil _ _).1

end run

end McuUtilities.Modbus
