import McuUtilities.Ymodem.Session

/-!
# Lost replies

The sender and the receiver joined by a link that may lose replies, after which the sender sends the
same frame again. The receiver takes a repeated header or data packet for one with a wrong number:
it hands its data over all the same and refuses it, as often as it is repeated, until it gives up.
A repeated second EOT it takes for the first of another file: the next one is acknowledged and counts
a file more. So a batch gets through exactly when the only replies lost are the NAK to the first EOT
of a file, which asks for the frame again as its loss does, and the reply to the last packet, after
which the receiver returns.
-/

namespace McuUtilities.Ymodem

variable {κ : Type}

/-- The frames a sender goes on from at the reply. A NAK makes it send the frame again, so the two
EOTs of a file are one frame here, which is sent until it is acknowledged. -/
def awaited (sent : List Sent) : List Sent := sent.filter fun p => p.reply ≠ [yNak]

/-- The frames the sender has not had the reply to, and the receiver. -/
structure Link (κ : Type) where
  left : List Sent
  receiver : Receiver κ

/-- One round: the sender sends its next frame, behind which the buffer holds `i.2`, and the
receiver answers. The frame is sent again when the reply is lost (`i.1`) or is not the one the
sender waits for. -/
def linkStep (cb : Callbacks κ) (l : Link κ) (i : Bool × List UInt8) :
    List Action × (Link κ ⊕ UInt16) :=
  match l.left with
  | [] => ([], .inl l)
  | p :: ps =>
    match receiveStep cb l.receiver (.data (p.bytes ++ i.2)) with
    | (out, .inr r) => (out, .inr r)
    | (out, .inl s) =>
      if i.1 = true ∨ bytesSent out ≠ p.reply then (out, .inl ⟨p :: ps, s⟩)
      else (out, .inl ⟨ps, s⟩)

def link (cb : Callbacks κ) : Machine (Link κ) (Bool × List UInt8) Action UInt16 := ⟨linkStep cb⟩

/-- `k` rounds from round `i` on: which of them lose the reply, what the buffer holds. -/
def rounds (lost : Nat → Bool) (residue : Nat → List UInt8) (i k : Nat) :
    List (Bool × List UInt8) := (List.range' i k).map fun j => (lost j, residue j)

/-- After some number of rounds the session has ended with the number of files and no error bit,
and every file has been handed over once. -/
def ExactlyOnce (cb : Callbacks κ) (b : Batch) (s : Receiver κ) (lost : Nat → Bool)
    (residue : Nat → List UInt8) : Prop :=
  ∃ k log r, (link cb).run ⟨awaited b.sent, s⟩ (rounds lost residue 0 k) = (log, .inr r) ∧
    DeliversAll b.transfers (log.flatMap fun e => calls e.2) ∧
    r.toNat = b.transfers.length ∧ errorBit r = false

section awaited
variable {p q : Sent} {sent ps : List Sent} {n : UInt8} {chunks : List (List UInt8)}

theorem awaited_nak (h : p.reply = [yNak]) : awaited (p :: sent) = awaited sent := by
  simp [awaited, h]

theorem awaited_cons (h : p.reply ≠ [yNak]) : awaited (p :: sent) = p :: awaited sent := by
  simp [awaited, h]

theorem awaited_append : awaited (sent ++ ps) = awaited sent ++ awaited ps := List.filter_append ..

theorem ack_ne_nak : [yAck] ≠ [yNak] := by decide

theorem ackC_ne_nak : [yAck, yC] ≠ [yNak] := by decide

theorem awaited_dataPackets : awaited (dataPackets n chunks) = dataPackets n chunks := by
  induction chunks generalizing n with
  | nil => rfl
  | cons c chunks ih => rw [dataPackets, awaited_cons ack_ne_nak, ih]

end awaited

section link
variable {cb : Callbacks κ} {s s' : Receiver κ} {p : Sent} {ps : List Sent} {out : List Action}
  {i : Bool × List UInt8}

theorem linkStep_stop {r : UInt16}
    (h : receiveStep cb s (.data (p.bytes ++ i.2)) = (out, .inr r)) :
    (link cb).step ⟨p :: ps, s⟩ i = (out, .inr r) := by
  simp only [link, linkStep, h]

theorem linkStep_repeat (h : receiveStep cb s (.data (p.bytes ++ i.2)) = (out, .inl s'))
    (hi : i.1 = true ∨ bytesSent out ≠ p.reply) :
    (link cb).step ⟨p :: ps, s⟩ i = (out, .inl ⟨p :: ps, s'⟩) := by
  simp only [link, linkStep, h, if_pos hi]

theorem linkStep_next (h : receiveStep cb s (.data (p.bytes ++ i.2)) = (out, .inl s'))
    (hi : ¬ i.1 = true) (hr : bytesSent out = p.reply) :
    (link cb).step ⟨p :: ps, s⟩ i = (out, .inl ⟨ps, s'⟩) := by
  have hc : ¬ (i.1 = true ∨ bytesSent out ≠ p.reply) := fun hc => hc.elim hi fun hn => hn hr
  simp only [link, linkStep, h, if_neg hc]

/-- A NAK, or its loss, makes the sender send the same bytes again. -/
theorem linkStep_asked {q : Sent} (hp : p.reply = [yNak]) (hq : q.reply ≠ [yNak])
    (hbytes : p.bytes = q.bytes)
    (h : receiveStep cb s (.data (p.bytes ++ i.2)) = (out, .inl s')) (hout : bytesSent out = p.reply) :
    (link cb).step ⟨awaited (p :: q :: ps), s⟩ i = (out, .inl ⟨awaited (q :: ps), s'⟩) := by
  have hans : bytesSent out ≠ q.reply := fun he => hq (by rw [← he, hout, hp])
  rw [hbytes] at h
  rw [awaited_nak hp, awaited_cons hq, linkStep_repeat h (.inr hans)]

end link

/-! ## A frame sent twice -/

/-- The receiver has taken the frame and refuses it from now on. -/
inductive Stuck : Receiver κ → Sent → Prop
  | header {s : Receiver κ} {b : HeaderBlock} {reply} : s.yFirstPacketReceived = false →
      s.ymodemPacketNumber ≠ 0 → reply ≠ [yNak] → Stuck s ⟨packet 0 b.bytes, reply⟩
  | data {s : Receiver κ} {n left c reply} : s.yFirstPacketReceived = true →
      s.ymodemPacketNumber ≠ n → s.fileLen = UInt32.ofNat left → left < 0xFFFFFFFF →
      (c.length = 128 ∨ c.length = 1024) → reply ≠ [yNak] → Stuck s ⟨packet n c, reply⟩

section stuck
variable {cb : Callbacks κ} (hcb : cb.Accepting) {s : Receiver κ} {p : Sent}
include hcb

/-- The frame is refused once more, or the receiver gives up. -/
theorem Stuck.step (h : Stuck s p) (residue : List UInt8) :
    (∃ out s', receiveStep cb s (.data (p.bytes ++ residue)) = (out, .inl s') ∧ Stuck s' p ∧
      bytesSent out ≠ p.reply) ∨
    ∃ out r, receiveStep cb s (.data (p.bytes ++ residue)) = (out, .inr r) ∧ errorBit r = true := by
  cases h with
  | @header b reply hf hn hr =>
    obtain ⟨app, hp⟩ := handle_header residue hcb b hf
    have hch := startByte_packet (.inl b.length_bytes) 0 residue
    simp only [if_neg hn] at hp
    simp only [receiveStep, if_pos hch]
    rcases receivePacket_refused hp (by decide) (by decide) (by decide) with ⟨out, he⟩ | he
    · exact .inr ⟨out, _, he, errorBit_errorResult _⟩
    · exact .inl ⟨_, _, he, .header hf hn hr, fun h => hr h.symm⟩
  | @data n left c reply hf hn hlen hleft hsize hr =>
    obtain ⟨app, hp⟩ := handle_data residue hcb (n := n) hsize (.inl hf) hlen hleft
    have hch := startByte_packet hsize n residue
    simp only [if_neg hn] at hp
    simp only [receiveStep, if_pos hch]
    rcases receivePacket_refused hp (by decide) (by decide) (by decide) with ⟨out, he⟩ | he
    · exact .inr ⟨out, _, he, errorBit_errorResult _⟩
    · exact .inl ⟨_, _, he, .data rfl hn rfl (by omega) hsize hr, fun h => hr h.symm⟩

/-- The session cannot end without error any more. -/
theorem Stuck.run (h : Stuck s p) {ps : List Sent} {rs : List (Bool × List UInt8)}
    {log : List ((Bool × List UInt8) × List Action)} {r : UInt16}
    (hrun : (link cb).run ⟨p :: ps, s⟩ rs = (log, .inr r)) : errorBit r = true := by
  induction rs generalizing s log with
  | nil => cases hrun
  | cons i rs ih =>
    rcases h.step hcb i.2 with ⟨out, s', hs, hs', hr⟩ | ⟨out, r', hs, hr⟩
    · rw [Machine.run_cons (linkStep_repeat hs (.inr hr))] at hrun
      exact ih hs' (Prod.ext rfl (Prod.mk.inj hrun).2)
    · rw [Machine.run_stop (linkStep_stop hs)] at hrun
      cases hrun
      exact hr

end stuck

/-! ## Sender and receiver in step -/

/-- What is sent from the files `ts` on. -/
def sentFrom (rest : List UInt8) (ts : List Transfer) : List Sent :=
  ts.flatMap Transfer.sent ++ [⟨packet 0 (0 :: rest), [yAck]⟩]

/-- The receiver waits for the first of the frames. -/
inductive InStep (rest : List UInt8) : Receiver κ → List Sent → Prop
  | await {s : Receiver κ} {k} {ts : List Transfer} : Awaiting s k → InStep rest s (sentFrom rest ts)
  | data {s : Receiver κ} {n left k chunks} {ts : List Transfer} : Receiving s n left k →
      (∀ c ∈ chunks, c.length = 128 ∨ c.length = 1024) →
      InStep rest s (dataPackets n chunks ++
        ⟨[yEot], [yNak]⟩ :: ⟨[yEot], [yAck, yC]⟩ :: sentFrom rest ts)
  | close {s : Receiver κ} {ts : List Transfer} : s.eotNum = 0 →
      InStep rest s (⟨[yEot], [yNak]⟩ :: ⟨[yEot], [yAck, yC]⟩ :: sentFrom rest ts)
  | eot {s : Receiver κ} {ts : List Transfer} : s.eotNum = 1 →
      InStep rest s (⟨[yEot], [yAck, yC]⟩ :: sentFrom rest ts)

/-- How many of the frames are EOTs. -/
def eots (sent : List Sent) : Nat := sent.countP fun p => p.bytes = [yEot]

/-- How many files were ended. -/
def ended (as : List Action) : Nat := as.count .receiveFile

/-- What comes of sending the frame, with `sent` to follow: the receiver asks for it again; or it
takes the frame and would refuse it from now on, or take it for another EOT; or the session ends. -/
inductive Reaction (cb : Callbacks κ) (rest : List UInt8) (s : Receiver κ) (residue : List UInt8) :
    Sent → List Sent → Prop
  | asked {p q sent out s'} : p.reply = [yNak] → q.reply ≠ [yNak] → p.bytes = q.bytes →
      receiveStep cb s (.data (p.bytes ++ residue)) = (out, .inl s') → bytesSent out = p.reply →
      InStep rest s' (q :: sent) → Reaction cb rest s residue p (q :: sent)
  | taken {p sent out s'} : p.reply ≠ [yNak] →
      receiveStep cb s (.data (p.bytes ++ residue)) = (out, .inl s') → bytesSent out = p.reply →
      InStep rest s' sent → ended (calls out) = eots [p] →
      (Stuck s' p ∨ ended (calls out) = 1 ∧
        ∃ sent', InStep rest s' sent' ∧ awaited sent' = p :: awaited sent) →
      Reaction cb rest s residue p sent
  | ends {p out r} : p.reply ≠ [yNak] → eots [p] = 0 →
      receiveStep cb s (.data (p.bytes ++ residue)) = (out, .inr r) →
      Reaction cb rest s residue p []

section counts
variable {p : Sent} {sent ps : List Sent} {as bs : List Action} {rest : List UInt8}

theorem eots_cons : eots (p :: sent) = eots [p] + eots sent := by
  simp only [eots, List.countP_cons, List.countP_nil, Nat.zero_add, Nat.add_comm]

theorem eots_append : eots (sent ++ ps) = eots sent + eots ps := List.countP_append

theorem ended_append : ended (as ++ bs) = ended as + ended bs := List.count_append

/-- A packet is no EOT. -/
theorem eots_packet {n : UInt8} {data reply : List UInt8} : eots [⟨packet n data, reply⟩] = 0 := by
  simp [eots, packet]

theorem eots_dataPackets {n : UInt8} {chunks : List (List UInt8)} :
    eots (dataPackets n chunks) = 0 := by
  induction chunks generalizing n with
  | nil => rfl
  | cons c chunks ih => rw [dataPackets, eots_cons, eots_packet, ih]

/-- The sender waits for one EOT of each file. -/
theorem eots_sentFrom (rest : List UInt8) (ts : List Transfer) :
    eots (awaited (sentFrom rest ts)) = ts.length := by
  induction ts with
  | nil => exact eots_packet
  | cons t ts ih =>
    have hsent : sentFrom rest (t :: ts) = ⟨packet 0 t.block.bytes, [yAck, yC]⟩ ::
        (dataPackets 1 t.chunks ++
          ⟨[yEot], [yNak]⟩ :: ⟨[yEot], [yAck, yC]⟩ :: sentFrom rest ts) := by
      simp [sentFrom, Transfer.sent]
    have heot : eots [⟨[yEot], [yAck, yC]⟩] = 1 := rfl
    rw [hsent, awaited_cons ackC_ne_nak, awaited_append, awaited_dataPackets, awaited_nak rfl,
      awaited_cons ackC_ne_nak, eots_cons, eots_append, eots_packet, eots_dataPackets, eots_cons,
      heot, ih, List.length_cons]
    omega

theorem DeliversAll.ended_eq {ts : List Transfer} (h : DeliversAll ts as) :
    ended as = ts.length := by
  induction h with
  | nil => rfl
  | cons hd _ ih =>
    obtain ⟨pieces, -, rfl⟩ := hd
    have hpieces : ended (pieces.map .receiveFileData) = 0 := by
      simp [ended, List.count_eq_zero]
    rw [ended_append, ih, ← List.singleton_append, ended_append, ended_append, hpieces,
      List.length_cons, Nat.add_comm]
    rfl

end counts

section instep
variable {cb : Callbacks κ} (hcb : cb.Accepting) {rest : List UInt8} (hrest : rest.length = 127)
  {s : Receiver κ} {sent : List Sent}
include hcb hrest

/-- The next frame, and what comes of it. -/
theorem InStep.step (h : InStep rest s sent) (residue : List UInt8) :
    ∃ p ps, sent = p :: ps ∧ Reaction cb rest s residue p ps := by
  -- the EOT that asks for itself again, from either of the states before it
  have hclose : ∀ {ts : List Transfer}, s.eotNum = 0 → Reaction cb rest s residue ⟨[yEot], [yNak]⟩
      (⟨[yEot], [yAck, yC]⟩ :: sentFrom rest ts) := fun h0 =>
    .asked rfl ackC_ne_nak rfl (receive_eot residue cb h0) rfl (.eot rfl)
  cases h with
  | @await k ts hs =>
    cases ts with
    | nil => exact ⟨_, _, rfl, .ends ack_ne_nak eots_packet (receive_end residue cb hrest hs)⟩
    | cons t ts =>
      have hlt : decimal t.block.digits < 0xFFFFFFFF := t.size_eq ▸ t.contents_lt
      obtain ⟨s', hstep, hs', hf⟩ := receive_header residue hcb hs t.block hlt
      have hn : s'.ymodemPacketNumber ≠ 0 := by
        rw [hs'.number]
        decide
      refine ⟨⟨packet 0 t.block.bytes, [yAck, yC]⟩, dataPackets 1 t.chunks ++
        ⟨[yEot], [yNak]⟩ :: ⟨[yEot], [yAck, yC]⟩ :: sentFrom rest ts,
        by simp [sentFrom, Transfer.sent], ?_⟩
      exact .taken ackC_ne_nak hstep rfl (.data hs' t.chunk_size) eots_packet.symm
        (.inl (.header hf hn ackC_ne_nak))
  | @data n left k chunks ts hs hsize =>
    cases chunks with
    | nil => exact ⟨_, _, rfl, hclose hs.eot⟩
    | cons c chunks =>
      have hc := hsize c List.mem_cons_self
      obtain ⟨s', hstep, hs', hf⟩ := receive_data residue hcb hs hc
      have hn : s'.ymodemPacketNumber ≠ n := by
        rw [hs'.number]
        intro h
        have := congrArg UInt8.toNat h
        rw [UInt8.toNat_add] at this
        have := n.toNat_lt
        simp at *
      refine ⟨_, _, rfl, .taken ack_ne_nak hstep rfl
        (.data hs' fun d hd => hsize d (List.mem_cons_of_mem c hd)) eots_packet.symm
        (.inl (.data hf hn hs'.len hs'.left_lt hc ack_ne_nak))⟩
  | close h0 => exact ⟨_, _, rfl, hclose h0⟩
  | @eot ts h1 =>
    obtain ⟨s', hstep, hs'⟩ := receive_eot_again residue cb (s := s)
      (k := s.ymodemFileNumber.toNat) h1 (by simp)
    have hagain : awaited (⟨[yEot], [yNak]⟩ :: ⟨[yEot], [yAck, yC]⟩ :: sentFrom rest ts) =
        ⟨[yEot], [yAck, yC]⟩ :: awaited (sentFrom rest ts) := by
      rw [awaited_nak rfl, awaited_cons ackC_ne_nak]
    exact ⟨_, _, rfl, .taken ackC_ne_nak hstep rfl (.await hs') rfl
      (.inr ⟨rfl, _, .close hs'.eot, hagain⟩)⟩

/-- A session that ends without error has ended a file for each EOT the sender waited for. -/
theorem InStep.ended_ge {rs : List (Bool × List UInt8)}
    {log : List ((Bool × List UInt8) × List Action)} {r : UInt16} (h : InStep rest s sent)
    (hrun : (link cb).run ⟨awaited sent, s⟩ rs = (log, .inr r)) (hr : errorBit r = false) :
    eots (awaited sent) ≤ ended (log.flatMap fun e => calls e.2) := by
  induction rs generalizing s sent log with
  | nil => cases hrun
  | cons i rs ih =>
    obtain ⟨p, ps, rfl, hreact⟩ := h.step hcb hrest i.2
    cases hreact with
    | @asked q ps out s' hp hq hbytes hstep hout hs' =>
      rw [Machine.run_cons (linkStep_asked hp hq hbytes hstep hout)] at hrun
      obtain ⟨rfl, hend⟩ := Prod.mk.inj hrun
      have := ih hs' (Prod.ext rfl hend)
      rw [awaited_nak hp, List.flatMap_cons, ended_append]
      exact Nat.le_add_left_of_le this
    | taken hp hstep hout hs' hcount hagain =>
      rw [awaited_cons hp] at hrun ⊢
      by_cases hi : i.1 = true
      · rw [Machine.run_cons (linkStep_repeat hstep (.inl hi))] at hrun
        obtain ⟨rfl, hend⟩ := Prod.mk.inj hrun
        rcases hagain with hstuck | ⟨-, sent', hsent', hawaited⟩
        · rw [hstuck.run hcb (Prod.ext rfl hend)] at hr
          cases hr
        · rw [← hawaited] at hend ⊢
          have := ih hsent' (Prod.ext rfl hend)
          rw [List.flatMap_cons, ended_append]
          exact Nat.le_add_left_of_le this
      · rw [Machine.run_cons (linkStep_next hstep hi hout)] at hrun
        obtain ⟨rfl, hend⟩ := Prod.mk.inj hrun
        have := ih hs' (Prod.ext rfl hend)
        rw [eots_cons, List.flatMap_cons, ended_append, hcount]
        exact Nat.add_le_add_left this _
    | ends hp hno hstep =>
      rw [awaited_cons hp, eots_cons, hno]
      exact Nat.zero_le _

/-- Once the reply to a frame the sender goes on from is lost, the session ends with an error, or
has ended a file too many. -/
theorem InStep.run_lost {lost : Nat → Bool} {residue : Nat → List UInt8} {i j k : Nat}
    {log : List ((Bool × List UInt8) × List Action)} {r : UInt16} (h : InStep rest s sent)
    (hj : j + 1 < sent.length) (hgoes : sent[j].reply ≠ [yNak]) (hlost : lost (i + j) = true)
    (hrun : (link cb).run ⟨awaited sent, s⟩ (rounds lost residue i k) = (log, .inr r))
    (hr : errorBit r = false) :
    eots (awaited sent) < ended (log.flatMap fun e => calls e.2) := by
  induction k generalizing s sent i j log with
  | zero => cases hrun
  | succ k ih =>
    have hrounds : rounds lost residue i (k + 1) =
        (lost i, residue i) :: rounds lost residue (i + 1) k := rfl
    rw [hrounds] at hrun
    obtain ⟨p, ps, rfl, hreact⟩ := h.step hcb hrest (residue i)
    cases hreact with
    | @asked q ps out s' hp hq hbytes hstep hout hs' =>
      rw [Machine.run_cons
        (linkStep_asked (i := (lost i, residue i)) hp hq hbytes hstep hout)] at hrun
      obtain ⟨rfl, hend⟩ := Prod.mk.inj hrun
      cases j with
      | zero => exact absurd hp hgoes
      | succ j =>
        have := ih (j := j) hs' (Nat.lt_of_succ_lt_succ hj) hgoes
          (by rw [← hlost]; congr 1; omega) (Prod.ext rfl hend)
        rw [awaited_nak hp, List.flatMap_cons, ended_append]
        exact Nat.lt_add_left _ this
    | taken hp hstep hout hs' hcount hagain =>
      rw [awaited_cons hp] at hrun ⊢
      by_cases hi : lost i = true
      · rw [Machine.run_cons (linkStep_repeat (i := (lost i, residue i)) hstep (.inl hi))] at hrun
        obtain ⟨rfl, hend⟩ := Prod.mk.inj hrun
        rcases hagain with hstuck | ⟨hone, sent', hsent', hawaited⟩
        · rw [hstuck.run hcb (Prod.ext rfl hend)] at hr
          cases hr
        · rw [← hawaited] at hend ⊢
          have := hsent'.ended_ge hcb hrest (Prod.ext rfl hend) hr
          rw [List.flatMap_cons, ended_append, hone, Nat.add_comm]
          exact Nat.lt_succ_of_le this
      · rw [Machine.run_cons (linkStep_next (i := (lost i, residue i)) hstep hi hout)] at hrun
        obtain ⟨rfl, hend⟩ := Prod.mk.inj hrun
        cases j with
        | zero => exact absurd hlost hi
        | succ j =>
          have := ih (j := j) hs' (Nat.lt_of_succ_lt_succ hj) hgoes
            (by rw [← hlost]; congr 1; omega) (Prod.ext rfl hend)
          rw [eots_cons, List.flatMap_cons, ended_append, hcount]
          exact Nat.add_lt_add_left this _
    | ends => exact absurd (Nat.lt_of_succ_lt_succ hj) (Nat.not_lt_zero j)

end instep

/-! ## Sessions that get through -/

theorem length_rounds (lost : Nat → Bool) (residue : Nat → List UInt8) (i k : Nat) :
    (rounds lost residue i k).length = k := by simp [rounds]

theorem conveys_zipWith {sent : List Sent} {rs : List (Bool × List UInt8)}
    (h : rs.length = sent.length) :
    Conveys (List.zipWith (fun p i => .data (p.bytes ++ i.2)) sent rs) sent := by
  induction sent generalizing rs with
  | nil => exact .nil
  | cons p sent ih =>
    match rs, h with
    | i :: rs, h => exact List.Forall₂.cons ⟨i.2, rfl⟩ (ih (Nat.succ.inj h))

section through
variable {cb : Callbacks κ} (hcb : cb.Accepting) {rest : List UInt8} (hrest : rest.length = 127)
  {s : Receiver κ}
include hcb hrest

/-- While no reply is lost that the sender goes on from, the link passes the frames on to the
receiver one by one. -/
theorem InStep.link_run {lost : Nat → Bool} {residue : Nat → List UInt8} {sent : List Sent}
    {i : Nat} {log : List (Input × List Action)} {r : UInt16} (h : InStep rest s sent)
    (hkept : ∀ j (hj : j + 1 < sent.length), sent[j].reply ≠ [yNak] → lost (i + j) = false)
    (hrun : (receiver cb).run s (List.zipWith (fun p i => .data (p.bytes ++ i.2)) sent
      (rounds lost residue i sent.length)) = (log, .inr r)) :
    ∃ log', (link cb).run ⟨awaited sent, s⟩ (rounds lost residue i sent.length) = (log', .inr r) ∧
      (log'.flatMap fun e => calls e.2) = logCalls log := by
  induction sent generalizing s i log with
  | nil => cases hrun
  | cons p ps ih =>
    have hrounds : rounds lost residue i (p :: ps).length =
        (lost i, residue i) :: rounds lost residue (i + 1) ps.length := rfl
    rw [hrounds, List.zipWith_cons_cons] at hrun
    rw [hrounds]
    have hkept' : ∀ j (hj : j + 1 < ps.length), ps[j].reply ≠ [yNak] →
        lost (i + 1 + j) = false := by
      intro j hj hgoes
      rw [Nat.add_assoc, Nat.add_comm 1 j]
      exact hkept (j + 1) (Nat.succ_lt_succ hj) hgoes
    obtain ⟨p', ps', hsent, hreact⟩ := h.step hcb hrest (residue i)
    obtain ⟨rfl, rfl⟩ := List.cons.inj hsent
    cases hreact with
    | @asked q ps out s' hp hq hbytes hstep hout hs' =>
      have hreceive : (receiver cb).step s (.data (p.bytes ++ residue i)) = (out, .inl s') := hstep
      rw [Machine.run_cons hreceive] at hrun
      obtain ⟨rfl, hend⟩ := Prod.mk.inj hrun
      obtain ⟨log', hrun', hcalls⟩ := ih hs' hkept' (Prod.ext rfl hend)
      refine ⟨((lost i, residue i), out) :: log', ?_, ?_⟩
      · rw [Machine.run_cons
          (linkStep_asked (i := (lost i, residue i)) hp hq hbytes hstep hout), hrun']
      · rw [List.flatMap_cons, hcalls]
        rfl
    | @taken _ out s' hp hstep hout hs' hcount hagain =>
      have hreceive : (receiver cb).step s (.data (p.bytes ++ residue i)) = (out, .inl s') := hstep
      rw [Machine.run_cons hreceive] at hrun
      obtain ⟨rfl, hend⟩ := Prod.mk.inj hrun
      obtain ⟨log', hrun', hcalls⟩ := ih hs' hkept' (Prod.ext rfl hend)
      have hi : ¬ lost i = true := by
        cases ps with
        | nil => cases hend
        | cons p' ps =>
          rw [← Nat.add_zero i, hkept 0 (by simp) hp]
          decide
      refine ⟨((lost i, residue i), out) :: log', ?_, ?_⟩
      · rw [awaited_cons hp,
          Machine.run_cons (linkStep_next (i := (lost i, residue i)) hstep hi hout), hrun']
      · rw [List.flatMap_cons, hcalls]
        rfl
    | @ends out r' hp hno hstep =>
      have hreceive : (receiver cb).step s (.data (p.bytes ++ residue i)) = (out, .inr r') := hstep
      rw [Machine.run_stop hreceive] at hrun
      cases hrun
      exact ⟨[((lost i, residue i), out)], by
        rw [awaited_cons hp, Machine.run_stop (linkStep_stop (i := (lost i, residue i)) hstep)], rfl⟩

end through

/-- A lost reply to a frame the sender goes on from keeps the batch from getting through, but for
the last. -/
theorem not_exactlyOnce_of_lost {cb : Callbacks κ} (hcb : cb.Accepting) {b : Batch}
    {s : Receiver κ} (hs : Awaiting s 0) {lost : Nat → Bool} {residue : Nat → List UInt8} {j : Nat}
    (hj : j + 1 < b.sent.length) (hgoes : b.sent[j].reply ≠ [yNak]) (hlost : lost j = true) :
    ¬ ExactlyOnce cb b s lost residue := by
  rintro ⟨k, log, r, hrun, hdel, -, hr⟩
  have hin : InStep b.rest s b.sent := .await hs
  have hmore := hin.run_lost hcb b.length_rest (i := 0) hj hgoes (by rwa [Nat.zero_add]) hrun hr
  have heots : eots (awaited b.sent) = b.transfers.length := eots_sentFrom b.rest b.transfers
  rw [hdel.ended_eq, heots] at hmore
  exact absurd hmore (Nat.lt_irrefl _)

/-- A batch gets through, each header announced once and each byte delivered once and in order,
exactly when it has fewer than 32768 files and the only replies lost are the NAK to the first EOT of
a file and the reply to the last packet. -/
theorem exactlyOnce_iff {cb : Callbacks κ} (hcb : cb.Accepting) (b : Batch) (fileLen : UInt32)
    (app : κ) (lost : Nat → Bool) (residue : Nat → List UInt8) :
    ExactlyOnce cb b (Receiver.start fileLen app) lost residue ↔
      b.transfers.length < 32768 ∧
        ∀ j (hj : j + 1 < b.sent.length), b.sent[j].reply ≠ [yNak] → lost j = false := by
  have hs := Receiver.awaiting_start fileLen app
  constructor
  · intro h
    refine ⟨?_, fun j hj hgoes => ?_⟩
    · obtain ⟨k, log, r, -, -, hr, herr⟩ := h
      rw [errorBit_eq, decide_eq_false_iff_not] at herr
      omega
    · cases hl : lost j with
      | false => rfl
      | true => exact absurd h (not_exactlyOnce_of_lost hcb hs hj hgoes hl)
  · rintro ⟨hlen, hkept⟩
    obtain ⟨log, hrun, -, hdel⟩ := run_batch hcb hs
      (conveys_zipWith (length_rounds lost residue 0 _))
    have hin : InStep b.rest (Receiver.start fileLen app) b.sent := .await hs
    obtain ⟨log', hrun', hcalls⟩ := hin.link_run hcb b.length_rest (i := 0)
      (fun j hj hgoes => by rw [Nat.zero_add]; exact hkept j hj hgoes) hrun
    have hsize : UInt16.size = 2 ^ 16 := rfl
    have hr : (UInt16.ofNat b.transfers.length).toNat = b.transfers.length :=
      UInt16.toNat_ofNat_of_lt' (by omega)
    refine ⟨_, log', _, hrun', hcalls ▸ hdel, hr, ?_⟩
    rw [errorBit_eq, hr, decide_eq_false_iff_not]
    omega

/-- One lost reply, to the header of a file of one byte or to its second EOT, and the batch does not
get through. -/
theorem not_exactlyOnce_oneFileBatch :
    ¬ ExactlyOnce silentCallbacks oneFileBatch (Receiver.start 0 ()) (fun j => j == 0)
        (fun _ => []) ∧
      ¬ ExactlyOnce silentCallbacks oneFileBatch (Receiver.start 0 ()) (fun j => j == 3)
        (fun _ => []) :=
  ⟨not_exactlyOnce_of_lost accepting_silentCallbacks (Receiver.awaiting_start 0 ()) (j := 0)
      (by decide) (by decide) rfl,
    not_exactlyOnce_of_lost accepting_silentCallbacks (Receiver.awaiting_start 0 ()) (j := 3)
      (by decide) (by decide) rfl⟩

/-- The NAK to the first EOT may be lost. -/
theorem exactlyOnce_oneFileBatch :
    ExactlyOnce silentCallbacks oneFileBatch (Receiver.start 0 ()) (fun j => j == 2)
      (fun _ => []) := by
  refine (exactlyOnce_iff accepting_silentCallbacks oneFileBatch 0 () _ _).mpr
    ⟨by decide, fun j hj hgoes => ?_⟩
  by_contra hl
  obtain rfl : j = 2 := by simpa using hl
  exact hgoes rfl

end McuUtilities.Ymodem
