import Mathlib.Data.List.Induction
import McuUtilities.Ymodem.Packet

/-!
# How a frame is put together

`ymodem_data_recv` appends what arrives to `recv_buf`, while `get_receive_data` polls `recv_len` and
learns from the first byte how many it has to wait for. Bytes arrive between any two steps of the
poll; however they are cut, the frame is complete when 0 is returned, and `recv_len` is reset.
-/

namespace McuUtilities.Ymodem

/-- `recv_buf` and `recv_len`. -/
structure RecvBuffer where
  recvBuf : Nat → UInt8
  recvLen : Nat

/-- `ymodem_data_recv(data, data_len)`. -/
def ymodemDataRecv (data : List UInt8) (b : RecvBuffer) : RecvBuffer :=
  let recvLen := if yProtFrameLenRecv ≤ b.recvLen + data.length then 0 else b.recvLen
  { recvBuf := store b.recvBuf recvLen data, recvLen := recvLen + data.length }

/-- Where `get_receive_data` is: at the head of its loop with `max_len`, at the first byte, after the
loop, or back with 0 or -1. -/
inductive Poll where
  | waiting (maxLen : Nat)
  | starting
  | leaving
  | returned
  | timedOut
deriving DecidableEq, Repr

/-- `max_len`, once the first byte is known. -/
def maxLen (ch : UInt8) : Nat := (if ch = ySoh then 128 else 1024) + 3 + 2

/-- What can happen: bytes arrive, or `get_receive_data` makes a step, in time or too late. -/
inductive Event where
  | recv (data : List UInt8)
  | poll
  | late

/-- One step of `get_receive_data`. The time is looked at at the head of the loop only. -/
def getReceiveDataStep (late : Bool) (b : RecvBuffer) : Poll → RecvBuffer × Poll
  | .waiting n =>
    if late then (b, .timedOut)
    else if n ≤ b.recvLen then (b, if n ≠ 1 then .leaving else .starting)
    else (b, .waiting n)
  | .starting =>
    if b.recvBuf 0 = ySoh ∨ b.recvBuf 0 = yStx then (b, .waiting (maxLen (b.recvBuf 0)))
    else (b, .leaving)
  | .leaving => ({ b with recvLen := 0 }, .returned)
  | .returned => (b, .returned)
  | .timedOut => (b, .timedOut)

def assemblyStep (s : RecvBuffer × Poll) : Event → RecvBuffer × Poll
  | .recv data => (ymodemDataRecv data s.1, s.2)
  | .poll => getReceiveDataStep false s.1 s.2
  | .late => getReceiveDataStep true s.1 s.2

/-- `get_receive_data` from its start, while the events happen. -/
def assemble (b : RecvBuffer) (events : List Event) : RecvBuffer × Poll :=
  events.foldl assemblyStep (b, .waiting 1)

/-- The bytes that arrive. -/
def arrived (events : List Event) : List UInt8 :=
  events.flatMap fun e => match e with
    | .recv data => data
    | _ => []

/-- A frame of 133 bytes with SOH, or one of 1029 with STX. -/
def IsFrame (frame : List UInt8) : Prop :=
  frame[0]? = some ySoh ∧ frame.length = 133 ∨ frame[0]? = some yStx ∧ frame.length = 1029

/-! ## What every interleaving keeps -/

/-- The buffer holds what arrived, and the poll knows no more than that. -/
structure Assembling (frame got : List UInt8) (s : RecvBuffer × Poll) : Prop where
  part : got <+: frame
  holds : slice s.1.recvBuf 0 got.length = got
  len : s.2 ≠ .returned → s.1.recvLen = got.length
  waiting : ∀ n, s.2 = .waiting n → n = 1 ∨ n = frame.length
  starting : s.2 = .starting → got ≠ []
  complete : s.2 = .leaving ∨ s.2 = .returned → got = frame
  reset : s.2 = .returned → s.1.recvLen = 0

section steps
variable {frame got data : List UInt8} {s : RecvBuffer × Poll} {late : Bool} {b : RecvBuffer}

theorem IsFrame.length_le (h : IsFrame frame) : frame.length < yProtFrameLenRecv := by
  have hmax : yProtFrameLenRecv = 1100 := rfl
  rcases h with ⟨-, h⟩ | ⟨-, h⟩ <;> omega

/-- `max_len` is the length of the frame that starts with the byte. -/
theorem IsFrame.maxLen_eq {ch : UInt8} (h : IsFrame frame) (hch : frame[0]? = some ch) :
    (ch = ySoh ∨ ch = yStx) ∧ maxLen ch = frame.length := by
  rcases h with ⟨h0, hlen⟩ | ⟨h0, hlen⟩
  · obtain rfl := Option.some.inj (h0.symm.trans hch)
    exact ⟨.inl rfl, hlen.symm⟩
  · obtain rfl := Option.some.inj (h0.symm.trans hch)
    exact ⟨.inr rfl, hlen.symm⟩

theorem Assembling.start (frame : List UInt8) (hb : b.recvLen = 0) :
    Assembling frame [] (b, .waiting 1) where
  part := List.nil_prefix
  holds := rfl
  len _ := hb
  waiting _ hn := .inl (Poll.waiting.inj hn).symm
  starting := nofun
  complete := nofun
  reset := nofun

/-- Bytes arrive: there is room for them, and `get_receive_data` is still in its loop. -/
theorem Assembling.recv (hframe : IsFrame frame) (h : Assembling frame got s)
    (hgot : got ++ data <+: frame) :
    Assembling frame (got ++ data) (ymodemDataRecv data s.1, s.2) := by
  have hfits := hgot.length_le
  have hmax := hframe.length_le
  rw [List.length_append] at hfits
  have hopen : data ≠ [] → ¬ (s.2 = .leaving ∨ s.2 = .returned) := by
    intro hne hdone
    have := List.length_pos_of_ne_nil hne
    rw [h.complete hdone] at hfits
    omega
  have hroom : ¬ yProtFrameLenRecv ≤ s.1.recvLen + data.length := by
    by_cases hback : s.2 = .returned
    · rw [h.reset hback]
      omega
    · rw [h.len hback]
      omega
  have hkept : ymodemDataRecv data s.1 =
      ⟨store s.1.recvBuf s.1.recvLen data, s.1.recvLen + data.length⟩ := by
    simp only [ymodemDataRecv, if_neg hroom]
  by_cases hne : data = []
  · subst hne
    have hsame : ymodemDataRecv [] s.1 = s.1 := by
      rw [hkept, store_nil]
      rfl
    rw [hsame, List.append_nil]
    exact h
  · have hlen : s.1.recvLen = got.length := h.len fun hback => hopen hne (.inr hback)
    rw [hkept, hlen]
    refine ⟨hgot, ?_, fun _ => (List.length_append ..).symm, h.waiting, ?_, ?_, ?_⟩
    · have hbefore : slice (store s.1.recvBuf got.length data) 0 got.length = got := by
        rw [slice_store_of_disjoint (.inr (by omega)), h.holds]
      rw [List.length_append, slice_add, hbefore, Nat.zero_add, slice_store_self]
    · exact fun hstart happ => h.starting hstart (List.append_eq_nil_iff.mp happ).1
    · exact fun hdone => absurd hdone (hopen hne)
    · exact fun hback => absurd (.inr hback) (hopen hne)

/-- A step of `get_receive_data`: it leaves the loop with the whole frame only. -/
theorem Assembling.step (hframe : IsFrame frame) (h : Assembling frame got s) :
    Assembling frame got (getReceiveDataStep late s.1 s.2) := by
  obtain ⟨b, p⟩ := s
  have hpos : frame.length ≠ 1 := by
    rcases hframe with ⟨-, hlen⟩ | ⟨-, hlen⟩ <;> omega
  cases p with
  | waiting n =>
    have hlen : b.recvLen = got.length := h.len nofun
    simp only [getReceiveDataStep]
    split
    · exact ⟨h.part, h.holds, fun _ => hlen, nofun, nofun, nofun, nofun⟩
    · split
      · next hn =>
        rcases h.waiting n rfl with rfl | rfl
        · refine ⟨h.part, h.holds, fun _ => hlen, nofun, fun _ hnil => ?_, nofun, nofun⟩
          rw [hlen, hnil] at hn
          exact absurd hn (by decide)
        · rw [if_pos hpos]
          rw [hlen] at hn
          exact ⟨h.part, h.holds, fun _ => hlen, nofun, nofun,
            fun _ => h.part.eq_of_length_le hn, nofun⟩
      · exact h
  | starting =>
    have hne := h.starting rfl
    obtain ⟨ch, rest, rfl⟩ := List.exists_cons_of_ne_nil hne
    obtain ⟨tail, rfl⟩ := h.part
    have hfirst : b.recvBuf 0 = ch := by
      have hheld := h.holds
      rw [List.length_cons, slice_succ] at hheld
      exact (List.cons.inj hheld).1
    obtain ⟨hkind, hmax⟩ := hframe.maxLen_eq (rfl : (ch :: rest ++ tail)[0]? = some ch)
    simp only [getReceiveDataStep, hfirst, if_pos hkind, hmax]
    exact ⟨h.part, h.holds, fun _ => h.len nofun, fun n hn => .inr (Poll.waiting.inj hn).symm,
      nofun, nofun, nofun⟩
  | leaving =>
    exact ⟨h.part, h.holds, fun hne => absurd rfl hne, nofun, nofun, fun _ => h.complete (.inl rfl),
      fun _ => rfl⟩
  | returned => exact h
  | timedOut => exact h

end steps

section runs
variable {frame : List UInt8} {b : RecvBuffer} {before after : List Event}

@[simp] theorem arrived_append (es fs : List Event) : arrived (es ++ fs) = arrived es ++ arrived fs :=
  List.flatMap_append

/-- Every interleaving of arrivals with steps. -/
theorem assembling_run (hframe : IsFrame frame) (hb : b.recvLen = 0) {events : List Event}
    (harrived : arrived events <+: frame) :
    Assembling frame (arrived events) (assemble b events) := by
  induction events using List.reverseRecOn with
  | nil => exact .start frame hb
  | append_singleton events e ih =>
    rw [arrived_append] at harrived
    have hs := ih ((List.prefix_append _ _).trans harrived)
    rw [assemble, List.foldl_append, List.foldl_cons, List.foldl_nil, arrived_append]
    cases e with
    | recv data =>
      have hdata : arrived [.recv data] = data := List.flatMap_singleton ..
      rw [hdata] at harrived ⊢
      exact hs.recv hframe harrived
    | poll =>
      have hnone : arrived [.poll] = [] := rfl
      rw [hnone, List.append_nil]
      exact hs.step hframe
    | late =>
      have hnone : arrived [.late] = [] := rfl
      rw [hnone, List.append_nil]
      exact hs.step hframe

/-- The steps `get_receive_data` still makes once the whole frame is there. -/
def stepsLeft : Poll → Nat
  | .waiting n => if n = 1 then 4 else 2
  | .starting => 3
  | .leaving => 1
  | _ => 0

theorem stepsLeft_le (p : Poll) : stepsLeft p ≤ 4 := by
  cases p with
  | waiting n =>
    simp only [stepsLeft]
    split <;> decide
  | starting => decide
  | leaving => decide
  | returned => decide
  | timedOut => decide

theorem stepsLeft_eq_zero {p : Poll} (h : stepsLeft p = 0) (hp : p ≠ .timedOut) :
    p = .returned := by
  cases p with
  | waiting n =>
    rw [stepsLeft] at h
    split at h <;> cases h
  | starting => cases h
  | leaving => cases h
  | returned => rfl
  | timedOut => exact absurd rfl hp

theorem step_inTime {p : Poll} (hp : p ≠ .timedOut) :
    (getReceiveDataStep false b p).2 ≠ .timedOut := by
  cases p with
  | waiting n =>
    simp only [getReceiveDataStep, Bool.false_eq_true, if_false]
    split
    · dsimp only
      split <;> nofun
    · nofun
  | starting =>
    simp only [getReceiveDataStep]
    split <;> nofun
  | leaving => nofun
  | returned => nofun
  | timedOut => exact absurd rfl hp

/-- With the whole frame there, every step brings `get_receive_data` closer to its end. -/
theorem step_progress {s : RecvBuffer × Poll} (hframe : IsFrame frame)
    (h : Assembling frame frame s) :
    stepsLeft (getReceiveDataStep false s.1 s.2).2 ≤ stepsLeft s.2 - 1 := by
  have hlong : frame.length ≠ 1 ∧ 1 ≤ frame.length := by
    rcases hframe with ⟨-, hlen⟩ | ⟨-, hlen⟩ <;> omega
  obtain ⟨b, p⟩ := s
  cases p with
  | waiting n =>
    have hlen : b.recvLen = frame.length := h.len nofun
    rcases h.waiting n rfl with rfl | rfl
    · simp only [getReceiveDataStep, Bool.false_eq_true, if_false, hlen, if_pos hlong.2]
      decide
    · simp only [getReceiveDataStep, Bool.false_eq_true, if_false, hlen, Nat.le_refl, if_true,
        ne_eq, hlong.1, not_false_eq_true, stepsLeft]
  | starting =>
    have hmax : maxLen (b.recvBuf 0) ≠ 1 := by
      rw [maxLen]
      split <;> decide
    simp only [getReceiveDataStep]
    split
    · simp only [stepsLeft, if_neg hmax]
      decide
    · exact Nat.le_succ 1
  | leaving => exact Nat.le_refl 0
  | returned => exact Nat.le_refl 0
  | timedOut => exact Nat.le_refl 0

theorem assemble_inTime {events : List Event} (h : .late ∉ events) :
    (assemble b events).2 ≠ .timedOut := by
  induction events using List.reverseRecOn with
  | nil => nofun
  | append_singleton events e ih =>
    rw [List.mem_append, not_or] at h
    have hp := ih h.1
    rw [assemble, List.foldl_append, List.foldl_cons, List.foldl_nil]
    cases e with
    | recv data => exact hp
    | poll => exact step_inTime hp
    | late => exact absurd (List.mem_singleton_self _) h.2

/-- The steps of `get_receive_data` among the events. -/
def polls : List Event → Nat
  | [] => 0
  | .poll :: es => polls es + 1
  | _ :: es => polls es

/-- Once the whole frame is there, as many steps as are left bring `get_receive_data` back. -/
theorem foldl_returns (hframe : IsFrame frame) {s : RecvBuffer × Poll}
    (h : Assembling frame frame s) (hp : s.2 ≠ .timedOut) (harrived : arrived after = [])
    (hlate : .late ∉ after) (hpolls : stepsLeft s.2 ≤ polls after) :
    (after.foldl assemblyStep s).2 = .returned := by
  induction after generalizing s with
  | nil => exact stepsLeft_eq_zero (Nat.le_zero.mp hpolls) hp
  | cons e after ih =>
    obtain ⟨hfirst, hrest⟩ := List.append_eq_nil_iff.mp
      ((List.flatMap_cons ..).symm.trans harrived)
    have hlate' := fun hm => hlate (List.mem_cons_of_mem e hm)
    rw [List.foldl_cons]
    cases e with
    | recv data =>
      have hnil : data = [] := hfirst
      have hsame : frame ++ data = frame := by rw [hnil, List.append_nil]
      have hpart : frame ++ data <+: frame := ⟨[], by rw [hsame, List.append_nil]⟩
      have hs := h.recv hframe hpart
      rw [hsame] at hs
      exact ih hs hp hrest hlate' hpolls
    | poll =>
      have hleft := step_progress hframe h
      refine ih (h.step hframe) (step_inTime hp) hrest hlate' ?_
      have hpolls' : stepsLeft s.2 ≤ polls after + 1 := hpolls
      exact Nat.le_trans hleft (by omega)
    | late => exact absurd List.mem_cons_self hlate

end runs

/-- However a frame is cut and however its bytes arrive between the steps of `get_receive_data`: if
0 was returned then the last byte had arrived, `recv_buf` starts with the frame and `recv_len` is 0;
and 0 is returned, at the fourth step after the last byte, unless the time runs out. -/
theorem frame_assembled {frame : List UInt8} (hframe : IsFrame frame) {b : RecvBuffer}
    (hb : b.recvLen = 0) {before after : List Event} (harrived : arrived (before ++ after) = frame) :
    ((assemble b before).2 = .returned → arrived before = frame ∧
        (∃ residue, slice (assemble b before).1.recvBuf 0 yProtFrameLenRecv = frame ++ residue) ∧
        (assemble b before).1.recvLen = 0) ∧
      (arrived before = frame → .late ∉ before ++ after → 4 ≤ polls after →
        (assemble b (before ++ after)).2 = .returned) := by
  have hpart : arrived before <+: frame := by
    rw [← harrived, arrived_append]
    exact List.prefix_append _ _
  have h := assembling_run hframe hb hpart
  constructor
  · intro hback
    have hall := h.complete (.inr hback)
    have hholds := h.holds
    have hroom : frame.length + (yProtFrameLenRecv - frame.length) = yProtFrameLenRecv := by
      have := hframe.length_le
      omega
    rw [hall] at hholds
    refine ⟨hall, ⟨slice (assemble b before).1.recvBuf (0 + frame.length)
      (yProtFrameLenRecv - frame.length), ?_⟩, h.reset hback⟩
    rw [← hroom, slice_add, hholds, hroom]
  · intro hall hlate hpolls
    rw [hall] at h
    rw [List.mem_append, not_or] at hlate
    rw [arrived_append, hall] at harrived
    rw [assemble, List.foldl_append]
    exact foldl_returns hframe h (assemble_inTime hlate.1)
      (List.append_right_eq_self.mp harrived) hlate.2 (Nat.le_trans (stepsLeft_le _) hpolls)

/-- The arrival of a frame in two parts, with steps in between. -/
def twoParts : List Event := [.recv [ySoh], .poll, .poll, .recv (List.replicate 132 0)]

/-- Four steps after the second part the whole frame is there. -/
theorem frame_assembled_two : ∃ b : RecvBuffer,
    (assemble b (twoParts ++ List.replicate 4 .poll)).2 = .returned ∧
      (∃ residue, slice (assemble b (twoParts ++ List.replicate 4 .poll)).1.recvBuf 0
        yProtFrameLenRecv = (ySoh :: List.replicate 132 0) ++ residue) ∧
      (assemble b (twoParts ++ List.replicate 4 .poll)).1.recvLen = 0 := by
  have hframe : IsFrame (ySoh :: List.replicate 132 0) := .inl ⟨rfl, by simp⟩
  have harrived : arrived (twoParts ++ List.replicate 4 .poll) = ySoh :: List.replicate 132 0 := rfl
  have hlate : .late ∉ twoParts ++ List.replicate 4 .poll := by simp [twoParts]
  have hback := (frame_assembled hframe (b := ⟨fun _ => 0, 0⟩) rfl harrived).2 rfl hlate
    (Nat.le_refl 4)
  rw [← List.append_nil (twoParts ++ _)] at harrived
  exact ⟨_, hback, ((frame_assembled hframe rfl harrived).1 hback).2⟩

end McuUtilities.Ymodem
