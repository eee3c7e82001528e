import Mathlib.Algebra.Group.Nat.Defs
import Make24.Proofs.Dealing

namespace Make24

namespace Random

/-- The fraction that a digit's first word leaves is so high that the second word may matter. -/
def asksForSecond (word : UInt32) : Bool :=
  UInt32.size - 9 < word.toNat * 9 % UInt32.size

/-- Where the first word of each digit of a stream stands. Behind it comes that of the next digit,
unless the digit asks for a second word. -/
def firstWord (words : Nat → UInt32) : Nat → Nat
  | 0 => 0
  | i + 1 => firstWord words i + if asksForSecond (words (firstWord words i)) then 2 else 1

/-- The digits of a stream: one more than the integer part of 9 times a fraction of 64 bits, the
high half of which is the digit's first word, and the low half the word behind it. -/
def digitAt (words : Nat → UInt32) (i : Nat) : Nat :=
  1 + 9 * ((words (firstWord words i)).toNat * 2 ^ 32 + (words (firstWord words i + 1)).toNat) /
    2 ^ 64

/-- A draw takes one word, or two if the first asks for the second. -/
theorem index_drawDigit (words : Nat → UInt32) (index : Nat) :
    (drawDigit words index).2 = index + if asksForSecond (words index) then 2 else 1 := by
  simp only [drawDigit, asksForSecond, decide_eq_true_eq]
  split
  · next h => rw [if_neg (Nat.not_lt.mpr h)]
  · next h => rw [if_pos (Nat.lt_of_not_le h)]

-- A second word that carries into the digit.
example : drawDigit (fun i => if i = 0 then 3340530119 else 4294967295) 0 = (8, 2) := by decide

namespace Source

/-- The source of a key in front of one of its digits. -/
def before (key : Key) (i : Nat) : Source :=
  ⟨key, firstWord (word key) i⟩

theorem draw_before (key : Key) (i : Nat) :
    (before key i).draw = (digitAt (word key) i, before key (i + 1)) := by
  have hdigit := digit_drawDigit (word key) (firstWord (word key) i)
  have hindex := index_drawDigit (word key) (firstWord (word key) i)
  rw [draw, before, before, firstWord, ← hindex, digitAt]
  exact Prod.ext hdigit rfl

/-- Draws take the next digits. -/
theorem drawn_before (key : Key) (i n : Nat) :
    ((before key i).drawn n).1.toList = (List.range' i n).map (digitAt (word key)) ∧
      ((before key i).drawn n).2 = before key (i + n) := by
  induction n with
  | zero => exact ⟨rfl, rfl⟩
  | succ n ih =>
    obtain ⟨hdigits, hsource⟩ := ih
    simp only [drawn, hsource, draw_before, Vector.toList_push, hdigits]
    rw [List.range'_1_concat, List.map_append]
    exact ⟨rfl, rfl⟩

/-- A deal takes the next four digits. -/
theorem deal_before (key : Key) (i : Nat) :
    (before key i).deal.1.toList = (List.range' i 4).map (digitAt (word key)) ∧
      (before key i).deal.2 = before key (i + 4) :=
  drawn_before key i dealSize

end Source

end Random

namespace Round

/-- Rounds drawn one after the other, and the source behind them. -/
def draws (source : Random.Source) : Nat → List (Except GameFault Round) × Random.Source
  | 0 => ([], source)
  | n + 1 =>
    let drawn := (draw source).value
    let more := draws drawn.2 n
    (drawn.1 :: more.1, more.2)

theorem value_draw_before (key : Random.Key) (i : Nat) :
    (draw (.before key i)).value =
      (.ok ⟨(Random.Source.before key i).deal.1, ⟨(Random.Source.before key i).deal.1.toList⟩⟩,
        .before key (i + 4)) := by
  rw [value_draw, value_start (Random.Source.isPlayable_of_mem_deal _),
    (Random.Source.deal_before key i).2]

/-- Every round takes the four digits behind those of the round before. -/
theorem draws_before (key : Random.Key) (i n : Nat) :
    ∃ deals : List Deal,
      draws (.before key i) n =
        (deals.map fun deal => .ok ⟨deal, ⟨deal.toList⟩⟩, .before key (i + 4 * n)) ∧
      deals.length = n ∧
      deals.flatMap Vector.toList = (List.range' i (4 * n)).map (Random.digitAt (Random.word key)) ∧
      ∀ deal ∈ deals, ∀ d ∈ deal.toList, isPlayable d = true := by
  induction n generalizing i with
  | zero => exact ⟨[], rfl, rfl, rfl, by simp⟩
  | succ n ih =>
    obtain ⟨deals, hdraws, hlength, hdigits, hplayable⟩ := ih (i + 4)
    refine ⟨(Random.Source.before key i).deal.1 :: deals, ?_, by rw [List.length_cons, hlength], ?_,
      ?_⟩
    · simp only [draws, value_draw_before, hdraws, List.map_cons]
      rw [Nat.mul_succ, Nat.add_assoc, Nat.add_comm 4]
    · have hrange : List.range' i (4 * (n + 1)) =
          List.range' i 4 ++ List.range' (i + 4) (4 * n) := by
        rw [List.range'_append_1, Nat.mul_succ, Nat.add_comm 4]
      rw [List.flatMap_cons, hdigits, (Random.Source.deal_before key i).1, hrange, List.map_append]
    · intro deal hdeal
      rcases List.mem_cons.mp hdeal with rfl | hdeal
      · exact Random.Source.isPlayable_of_mem_deal _
      · exact hplayable deal hdeal

end Round

/-- However many rounds are drawn from one seed, all of them start. Their digits lie between 1 and
9, and are those of one stream, four by four, none left out and none twice. Each is one more than
the integer part of 9 times the fraction made of its first word and the word behind, though that one
is used up only if the first asks for it. -/
theorem draws_of_seeded (seed : UInt64) (n : Nat) :
    let key : Random.Key := .ofSeed seed
    let words := Random.word key
    ∃ deals : List Deal,
      Round.draws (Random.Source.seeded seed).value n =
        (deals.map fun deal => .ok ⟨deal, ⟨deal.toList⟩⟩,
          ⟨key, Random.firstWord words (4 * n)⟩) ∧
      deals.length = n ∧
      deals.flatMap Vector.toList = (List.range (4 * n)).map (fun i =>
        1 + 9 * ((words (Random.firstWord words i)).toNat * 2 ^ 32 +
          (words (Random.firstWord words i + 1)).toNat) / 2 ^ 64) ∧
      ∀ deal ∈ deals, ∀ d ∈ deal.toList, 1 ≤ d ∧ d ≤ 9 := by
  intro key words
  obtain ⟨deals, hdraws, hlength, hdigits, hplayable⟩ := Round.draws_before key 0 n
  rw [Nat.zero_add] at hdraws
  refine ⟨deals, hdraws, hlength, ?_, fun deal hdeal d hd => ?_⟩
  · rw [List.range_eq_range']
    exact hdigits
  · simpa [isPlayable] using hplayable deal hdeal d hd

end Make24
