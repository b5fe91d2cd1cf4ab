import Mathlib.Data.Fintype.Card
import Mathlib.Logic.Function.Basic

/-!
# Singly linked lists

A list is kept in a head and in one `next` field for each cell. `Links.Holds s l` says that the cells
from the head on are those of `l`, each once. A cell is put in front (`Links.push`), searched for
(`Links.seek`), and removed through a pointer to the field that points to it (`Links.unlink`). The loops
make at most so many rounds as they are given; over links that hold a list of fewer cells they end.
-/

namespace McuUtilities

/-- The head of a list and the `next` fields of the cells. -/
structure Links (ι : Type) where
  head : Option ι
  next : ι → Option ι

/-- The cells from `p` on are those of the list. -/
def Chain {ι : Type} (next : ι → Option ι) : Option ι → List ι → Prop
  | p, [] => p = none
  | p, a :: l => p = some a ∧ Chain next (next a) l

namespace Chain

variable {ι : Type} {next next' : ι → Option ι} {p : Option ι} {l : List ι}

theorem congr (h : ∀ a ∈ l, next' a = next a) : Chain next' p l ↔ Chain next p l := by
  induction l generalizing p with
  | nil => exact Iff.rfl
  | cons a l ih =>
    rw [Chain, Chain, h a List.mem_cons_self, ih fun b hb => h b (List.mem_cons_of_mem a hb)]

theorem head?_eq (h : Chain next p l) : l.head? = p := by
  cases l with
  | nil => exact h.symm
  | cons a l => exact h.1.symm

theorem append {l' : List ι} : Chain next p (l ++ l') → ∃ q, Chain next q l' := by
  induction l generalizing p with
  | nil => exact fun h => ⟨p, h⟩
  | cons a l ih => exact fun h => ih h.2

end Chain

namespace Links

variable {ι : Type} {s : Links ι} {a : ι} {l : List ι} {n : Nat}

/-- The links hold the list `l`. -/
structure Holds (s : Links ι) (l : List ι) : Prop where
  chain : Chain s.next s.head l
  nodup : l.Nodup

theorem holds_nil {next : ι → Option ι} : Holds ⟨none, next⟩ [] := ⟨rfl, List.nodup_nil⟩

/-- The cell behind a cell of the list. -/
theorem Holds.next_eq {l' : List ι} (h : s.Holds (l ++ a :: l')) : s.next a = l'.head? := by
  obtain ⟨q, hq⟩ := h.chain.append
  exact hq.2.head?_eq.symm

variable [DecidableEq ι]

/-! ## In front -/

/-- Puts a cell in front. -/
def push (s : Links ι) (a : ι) : Links ι := ⟨some a, Function.update s.next a s.head⟩

theorem Holds.push (h : s.Holds l) (ha : a ∉ l) : (s.push a).Holds (a :: l) := by
  refine ⟨⟨rfl, ?_⟩, List.nodup_cons.mpr ⟨ha, h.nodup⟩⟩
  show Chain (Function.update s.next a s.head) (Function.update s.next a s.head a) l
  rw [Function.update_self]
  have hkept : ∀ b ∈ l, Function.update s.next a s.head b = s.next b := by
    intro b hb
    have hne : b ≠ a := fun hba => ha (hba ▸ hb)
    exact Function.update_of_ne hne _ _
  exact (Chain.congr hkept).mpr h.chain

theorem next_push_of_ne {b : ι} (hb : b ≠ a) : (s.push a).next b = s.next b :=
  Function.update_of_ne hb _ _

/-! ## Search -/

/-- Searches for a cell from `p` on. -/
def seek (s : Links ι) (a : ι) : Nat → Option ι → Option Bool
  | 0, _ => none
  | _ + 1, none => some false
  | n + 1, some b => if b = a then some true else s.seek a n (s.next b)

theorem seek_eq {p : Option ι} (h : Chain s.next p l) (hn : l.length < n) :
    s.seek a n p = some (decide (a ∈ l)) := by
  induction n generalizing p l with
  | zero => exact absurd hn (Nat.not_lt_zero _)
  | succ n ih =>
    cases l with
    | nil =>
      obtain rfl : p = none := h
      rfl
    | cons b l =>
      obtain ⟨rfl, hl⟩ := h
      rw [seek]
      by_cases hab : b = a
      · rw [if_pos hab, hab]
        simp
      · rw [if_neg hab, ih hl (Nat.lt_of_succ_lt_succ hn)]
        simp [Ne.symm hab]

/-! ## Removal -/

/-- A field that points to a cell. -/
inductive Slot (ι : Type) where
  | head
  | next (a : ι)
deriving DecidableEq

def get (s : Links ι) : Slot ι → Option ι
  | .head => s.head
  | .next a => s.next a

def put (s : Links ι) (p : Option ι) : Slot ι → Links ι
  | .head => { s with head := p }
  | .next a => { s with next := Function.update s.next a p }

/-- Removes a cell from the slot on. -/
def unlink (a : ι) : Nat → Slot ι → Links ι → Option (Links ι)
  | 0, _, _ => none
  | n + 1, slot, s =>
    match s.get slot with
    | none => some s
    | some b => if b = a then unlink a n slot (s.put (s.next b) slot) else unlink a n (.next b) s

section slot
variable {slot : Slot ι} {p : Option ι} {b : ι}

@[simp] theorem get_put : (s.put p slot).get slot = p := by
  cases slot with
  | head => rfl
  | next a => exact Function.update_self ..

theorem next_put_of_ne (h : slot ≠ .next b) : (s.put p slot).next b = s.next b := by
  cases slot with
  | head => rfl
  | next a => exact Function.update_of_ne (fun hab => h (congrArg Slot.next hab.symm)) _ _

theorem head_put_of_ne (h : slot ≠ .head) : (s.put p slot).head = s.head := by
  cases slot with
  | head => exact absurd rfl h
  | next a => rfl

end slot

/-- What removing a cell from a slot on does to the cells from there, and to the others. -/
structure Unlinked (a : ι) (slot : Slot ι) (l : List ι) (s s' : Links ι) : Prop where
  chain : Chain s'.next (s'.get slot) (l.erase a)
  next : ∀ b, b = a ∨ b ∉ l → slot ≠ .next b → s'.next b = s.next b
  head : slot ≠ .head → s'.head = s.head

theorem unlink_eq {slot : Slot ι} (h : Chain s.next (s.get slot) l) (hl : l.Nodup)
    (hslot : ∀ b ∈ l, slot ≠ .next b) (hn : l.length < n) :
    ∃ s', unlink a n slot s = some s' ∧ Unlinked a slot l s s' := by
  induction n generalizing s l slot with
  | zero => exact absurd hn (Nat.not_lt_zero _)
  | succ n ih =>
    cases l with
    | nil =>
      have hend : s.get slot = none := h
      exact ⟨s, by rw [unlink, hend], h, fun _ _ _ => rfl, fun _ => rfl⟩
    | cons b l =>
      obtain ⟨hget, hrest⟩ := h
      obtain ⟨hb, hl⟩ := List.nodup_cons.mp hl
      have hlen : l.length < n := Nat.lt_of_succ_lt_succ hn
      rw [unlink, hget]
      dsimp only
      by_cases hab : b = a
      · subst hab
        rw [if_pos rfl]
        have hcell : ∀ c ∈ l, (s.put (s.next b) slot).next c = s.next c :=
          fun c hc => next_put_of_ne (hslot c (List.mem_cons_of_mem b hc))
        have hchain : Chain (s.put (s.next b) slot).next ((s.put (s.next b) slot).get slot) l := by
          rw [get_put]
          exact (Chain.congr hcell).mpr hrest
        obtain ⟨s', hrun, hs'⟩ := ih hchain hl (fun c hc => hslot c (List.mem_cons_of_mem b hc)) hlen
        refine ⟨s', hrun, ?_, fun c hc hne => ?_, fun hne => ?_⟩
        · rw [List.erase_cons_head]
          rw [← List.erase_of_not_mem hb]
          exact hs'.chain
        · have hc' : c = b ∨ c ∉ l := hc.imp_right fun h' hmem => h' (List.mem_cons_of_mem b hmem)
          exact (hs'.next c hc' hne).trans (next_put_of_ne hne)
        · exact (hs'.head hne).trans (head_put_of_ne hne)
      · rw [if_neg hab]
        have hslot' : ∀ c ∈ l, Slot.next b ≠ .next c := by
          intro c hc heq
          cases heq
          exact hb hc
        obtain ⟨s', hrun, hs'⟩ := @ih s l (.next b) hrest hl hslot' hlen
        have hkept : s'.get slot = s.get slot := by
          cases slot with
          | head => exact hs'.head (by simp)
          | next c =>
            have hc : c ∉ b :: l := fun hc => hslot c hc rfl
            refine hs'.next c (.inr fun h' => hc (List.mem_cons_of_mem b h')) ?_
            intro heq
            cases heq
            exact hc List.mem_cons_self
        refine ⟨s', hrun, ?_, fun c hc hne => ?_, fun _ => hs'.head (by simp)⟩
        · rw [List.erase_cons_tail (by simpa using hab), hkept, hget]
          exact ⟨rfl, hs'.chain⟩
        · have hcb : c ≠ b := by
            rcases hc with rfl | hc
            · exact Ne.symm hab
            · exact fun h' => hc (h' ▸ List.mem_cons_self)
          refine hs'.next c (hc.imp_right fun h' hmem => h' (List.mem_cons_of_mem b hmem)) ?_
          intro heq
          cases heq
          exact hcb rfl

/-- Removing a cell from a list. The `next` fields of the cell and of those outside are kept. -/
theorem Holds.unlink (h : s.Holds l) (hn : l.length < n) :
    ∃ s', Links.unlink a n .head s = some s' ∧ s'.Holds (l.erase a) ∧
      ∀ b, b = a ∨ b ∉ l → s'.next b = s.next b := by
  obtain ⟨s', hrun, hs'⟩ := @unlink_eq ι s a l n _ .head h.chain h.nodup (fun _ _ => by simp) hn
  exact ⟨s', hrun, ⟨hs'.chain, h.nodup.erase a⟩, fun b hb => hs'.next b hb (by simp)⟩

end Links

end McuUtilities
