import Mathlib

/-!
# Printed numbers and formats

`printint`, `printf` of the user programs, `cprintf` of the kernel, and `atoi`.
The arguments of a format are the words behind it on the stack, and a string
argument is the address of its characters.
-/

namespace SlabStudy.Xv6.Printing

/-! ## Numbers -/

/-- `digits` of the kernel and of the user programs. -/
def lowerDigits : List Char := "0123456789abcdef".toList

def upperDigits : List Char := "0123456789ABCDEF".toList

/-- The loop of `printint`: what it stores into `buf`.  A `uint` has at most 32 digits. -/
def storeDigits (digits : List Char) (base : Nat) : Nat → Nat → List Char
  | 0, _ => []
  | fuel + 1, x =>
    digits.getD (x % base) '0' ::
      if x / base = 0 then [] else storeDigits digits base fuel (x / base)

/-- `printint`: `buf` is put out from its end. -/
def printint (digits : List Char) (xx : BitVec 32) (base : Nat) (sign : Bool) : List Char :=
  let neg := sign && xx.msb
  let x := if neg then -xx else xx
  (storeDigits digits base 32 x.toNat ++ if neg then ['-'] else []).reverse

/-- `'0' <= *s && *s <= '9'` -/
def isDigit (c : Char) : Bool := '0' ≤ c && c ≤ '9'

/-- The loop of `atoi`. -/
def atoiLoop (n : BitVec 32) : List Char → BitVec 32
  | [] => n
  | c :: s => if isDigit c then atoiLoop (n * 10 + BitVec.ofNat 32 (c.toNat - 48)) s else n

def atoi (s : List Char) : BitVec 32 := atoiLoop 0 s

/-! ## Formats -/

section

variable (strings : BitVec 32 → List Char) (args : Nat → BitVec 32)

/-- The characters of a `%s`. -/
def stringArg (s : BitVec 32) : List Char := if s = 0 then "(null)".toList else strings s

/-- `cprintf`, with `argp` words read. -/
def cprintf : Nat → List Char → List Char
  | _, [] => []
  | argp, c :: fmt =>
    if c ≠ '%' then c :: cprintf argp fmt
    else match fmt with
      | [] => []
      | c :: fmt =>
        if c = 'd' then printint lowerDigits (args argp) 10 true ++ cprintf (argp + 1) fmt
        else if c = 'x' ∨ c = 'p' then
          printint lowerDigits (args argp) 16 false ++ cprintf (argp + 1) fmt
        else if c = 's' then stringArg strings (args argp) ++ cprintf (argp + 1) fmt
        else if c = '%' then '%' :: cprintf argp fmt
        else '%' :: c :: cprintf argp fmt

/-- `printf` with a table of digits and with `ap` words read; `state` is whether the
last character was a `%`. -/
def printfWith (digits : List Char) : Bool → Nat → List Char → List Char
  | _, _, [] => []
  | false, ap, c :: fmt =>
    if c = '%' then printfWith digits true ap fmt else c :: printfWith digits false ap fmt
  | true, ap, c :: fmt =>
    if c = 'd' then printint digits (args ap) 10 true ++ printfWith digits false (ap + 1) fmt
    else if c = 'x' ∨ c = 'p' then
      printint digits (args ap) 16 false ++ printfWith digits false (ap + 1) fmt
    else if c = 's' then stringArg strings (args ap) ++ printfWith digits false (ap + 1) fmt
    else if c = 'c' then
      Char.ofNat ((args ap).toNat % 256) :: printfWith digits false (ap + 1) fmt
    else if c = '%' then c :: printfWith digits false ap fmt
    else '%' :: c :: printfWith digits false ap fmt

def printf (fmt : List Char) : List Char := printfWith strings args upperDigits false 0 fmt

end

/-- The format has a `%c`. -/
def hasChar : Bool → List Char → Bool
  | _, [] => false
  | false, c :: fmt => hasChar (c = '%') fmt
  | true, c :: fmt => c = 'c' || hasChar false fmt

/-- The same character, or the same hexadecimal digit in the two tables. -/
def SameDigit (c d : Char) : Prop :=
  c = d ∨ ∃ k < 16, c = upperDigits.getD k '0' ∧ d = lowerDigits.getD k '0'

/-! ## What is printed is read again -/

theorem storeDigits_length (digits : List Char) {base k fuel x : Nat}
    (small : x < base ^ (k + 1)) : (storeDigits digits base fuel x).length ≤ k + 1 := by
  induction fuel generalizing k x with
  | zero => exact Nat.zero_le _
  | succ fuel ih =>
      rw [storeDigits, List.length_cons]
      split
      · exact Nat.succ_le_succ (Nat.zero_le k)
      · cases k with
        | zero =>
            rw [Nat.zero_add, pow_one] at small
            exact absurd (Nat.div_eq_of_lt small) ‹_›
        | succ k =>
            refine Nat.succ_le_succ (ih ?_)
            rw [pow_succ] at small
            exact Nat.div_lt_of_lt_mul (by rw [Nat.mul_comm]; exact small)

theorem digit_read {k : Nat} (less : k < 10) : isDigit (upperDigits.getD k '0') = true ∧
    (upperDigits.getD k '0').toNat - 48 = k := by
  decide +revert

theorem atoiLoop_append (n : BitVec 32) {s rest : List Char} (only : ∀ c ∈ s, isDigit c) :
    atoiLoop n (s ++ rest) = atoiLoop (atoiLoop n s) rest := by
  induction s generalizing n with
  | nil => rfl
  | cons c s ih =>
      have first : isDigit c = true := only c List.mem_cons_self
      rw [List.cons_append, atoiLoop, atoiLoop, if_pos first, if_pos first]
      exact ih _ fun d member => only d (List.mem_cons_of_mem _ member)

theorem storeDigits_digits {fuel x : Nat} {c : Char}
    (member : c ∈ storeDigits upperDigits 10 fuel x) : isDigit c := by
  induction fuel generalizing x with
  | zero => cases member
  | succ fuel ih =>
      rw [storeDigits] at member
      rcases List.mem_cons.mp member with rfl | member
      · exact (digit_read (Nat.mod_lt x (by decide))).1
      · split at member
        · cases member
        · exact ih member

/-- The digits of a number are read as the number. -/
theorem atoiLoop_digits {fuel x : Nat} (enough : x < 10 ^ fuel) :
    atoiLoop 0 (storeDigits upperDigits 10 fuel x).reverse = BitVec.ofNat 32 x := by
  induction fuel generalizing x with
  | zero =>
      obtain rfl : x = 0 := by omega
      rfl
  | succ fuel ih =>
      obtain ⟨isOne, value⟩ := digit_read (Nat.mod_lt x (show 10 > 0 by decide))
      rw [storeDigits, List.reverse_cons]
      have rest : atoiLoop 0 (if x / 10 = 0 then [] else
          storeDigits upperDigits 10 fuel (x / 10)).reverse = BitVec.ofNat 32 (x / 10) := by
        split
        · next zero =>
          rw [zero]
          rfl
        · refine ih ?_
          rw [pow_succ] at enough
          exact Nat.div_lt_of_lt_mul (by rw [Nat.mul_comm]; exact enough)
      rw [atoiLoop_append, rest, atoiLoop, if_pos isOne, value, atoiLoop]
      · have ten : (10 : BitVec 32) = BitVec.ofNat 32 10 := rfl
        rw [ten, ← BitVec.ofNat_mul, ← BitVec.ofNat_add, Nat.div_add_mod']
      · intro c member
        rw [List.mem_reverse] at member
        split at member
        · cases member
        · exact storeDigits_digits member

theorem atoiLoop_stop (n : BitVec 32) {rest : List Char}
    (ends : ∀ c, rest.head? = some c → isDigit c = false) : atoiLoop n rest = n := by
  cases rest with
  | nil => rfl
  | cons c rest =>
      rw [atoiLoop, if_neg (by rw [ends c rfl]; decide)]

theorem atoi_digits (x : BitVec 32) {rest : List Char}
    (ends : ∀ c, rest.head? = some c → isDigit c = false) :
    atoi ((storeDigits upperDigits 10 32 x.toNat).reverse ++ rest) = x := by
  unfold atoi
  rw [atoiLoop_append, atoiLoop_digits (x.isLt.trans (by decide)), BitVec.ofNat_toNat,
    BitVec.setWidth_eq, atoiLoop_stop x ends]
  exact fun c member => storeDigits_digits (List.mem_reverse.mp member)

/-- `atoi` reads what `%d` prints, in front of anything but a digit; behind the
sign, if there is one, it reads the absolute value.  `buf` is long enough for `%d`,
and for `%x` and `%p`. -/
theorem atoi_printint (x : BitVec 32) {rest : List Char}
    (ends : ∀ c, rest.head? = some c → isDigit c = false) :
    (x.msb = false → atoi (printint upperDigits x 10 true ++ rest) = x) ∧
      (x.msb = true → ∃ s, printint upperDigits x 10 true = '-' :: s ∧ atoi (s ++ rest) = -x) ∧
      (printint upperDigits x 10 true).length ≤ 11 ∧
      (printint upperDigits x 16 false).length ≤ 8 := by
  have short (y : BitVec 32) : (storeDigits upperDigits 10 32 y.toNat).length ≤ 10 :=
    storeDigits_length _ (k := 9) (y.isLt.trans (by decide))
  refine ⟨fun plus => ?_, fun minus => ?_, ?_, ?_⟩
  · simp only [printint, plus, Bool.and_false, Bool.false_eq_true, if_false, List.append_nil]
    exact atoi_digits x ends
  · refine ⟨(storeDigits upperDigits 10 32 (-x).toNat).reverse, ?_, atoi_digits (-x) ends⟩
    simp only [printint, minus, Bool.and_true, if_true, List.reverse_append,
      List.reverse_singleton, List.singleton_append]
  · rw [printint, List.length_reverse, List.length_append]
    have signed (b : Bool) : (if b then ['-'] else []).length ≤ 1 := by
      cases b <;> decide
    exact Nat.add_le_add (short _) (signed _)
  · rw [printint, List.length_reverse, List.length_append]
    exact storeDigits_length upperDigits (k := 7) x.isLt

/-- The smallest number. -/
theorem atoi_printint_least : ∃ s, printint upperDigits 0x80000000 10 true = '-' :: s ∧
    atoi (s ++ [' ']) = 0x80000000 := by
  have ends (c : Char) (same : [' '].head? = some c) : isDigit c = false := by
    cases same
    rfl
  exact (atoi_printint 0x80000000 ends).2.1 (by decide)

/-! ## The kernel and the programs print the same -/

theorem storeDigits_same {base fuel x : Nat} (small : base ≤ 16) (pos : 0 < base) :
    List.Forall₂ SameDigit (storeDigits upperDigits base fuel x)
      (storeDigits lowerDigits base fuel x) := by
  induction fuel generalizing x with
  | zero => exact .nil
  | succ fuel ih =>
      rw [storeDigits, storeDigits]
      refine .cons (.inr ⟨x % base, (Nat.mod_lt x pos).trans_le small, rfl, rfl⟩) ?_
      split
      · exact .nil
      · exact ih

theorem same_refl (s : List Char) : List.Forall₂ SameDigit s s :=
  List.forall₂_same.mpr fun _ _ => .inl rfl

theorem printint_same (x : BitVec 32) (sign : Bool) {base : Nat} (small : base ≤ 16)
    (pos : 0 < base) : List.Forall₂ SameDigit (printint upperDigits x base sign)
      (printint lowerDigits x base sign) :=
  List.rel_reverse (List.rel_append (storeDigits_same small pos) (same_refl _))

section

variable (strings : BitVec 32 → List Char) (args : Nat → BitVec 32)

/-- The table of digits shows in printed numbers only. -/
theorem printfWith_same {one other : List Char}
    (number : ∀ x, List.Forall₂ SameDigit (printint one x 10 true) (printint other x 10 true))
    (hexes : ∀ x, List.Forall₂ SameDigit (printint one x 16 false) (printint other x 16 false))
    (state : Bool) (ap : Nat) (fmt : List Char) : List.Forall₂ SameDigit
      (printfWith strings args one state ap fmt)
      (printfWith strings args other state ap fmt) := by
  fun_induction printfWith strings args one state ap fmt with
  | case1 state ap =>
      rw [printfWith]
      exact .nil
  | case2 ap fmt ih =>
      rw [printfWith, if_pos rfl]
      exact ih
  | case3 ap c fmt plain ih =>
      rw [printfWith, if_neg plain]
      exact .cons (.inl rfl) ih
  | case4 ap fmt ih =>
      rw [printfWith, if_pos rfl]
      exact List.rel_append (number (args ap)) ih
  | case5 ap c fmt notD hex ih =>
      rw [printfWith, if_neg notD, if_pos hex]
      exact List.rel_append (hexes (args ap)) ih
  | case6 ap fmt notD notHex ih =>
      rw [printfWith, if_neg notD, if_neg notHex, if_pos rfl]
      exact List.rel_append (same_refl _) ih
  | case7 ap fmt notD notHex notS ih =>
      rw [printfWith, if_neg notD, if_neg notHex, if_neg notS, if_pos rfl]
      exact .cons (.inl rfl) ih
  | case8 ap fmt notD notHex notS notC ih =>
      rw [printfWith, if_neg notD, if_neg notHex, if_neg notS, if_neg notC, if_pos rfl]
      exact .cons (.inl rfl) ih
  | case9 ap c fmt notD notHex notS notC notPercent ih =>
      rw [printfWith, if_neg notD, if_neg notHex, if_neg notS, if_neg notC, if_neg notPercent]
      exact .cons (.inl rfl) (.cons (.inl rfl) ih)

/-- A directive. -/
theorem hasChar_directive {c d : Char} {fmt : List Char} (percent : ¬ c ≠ '%')
    (known : hasChar false (c :: d :: fmt) = false) : d ≠ 'c' ∧ hasChar false fmt = false := by
  obtain rfl := not_not.mp percent
  simpa [hasChar] using known

/-- Without `%c` the kernel's loop prints what that of the programs does with its digits. -/
theorem printfWith_lower (ap : Nat) (fmt : List Char) (known : hasChar false fmt = false) :
    printfWith strings args lowerDigits false ap fmt = cprintf strings args ap fmt := by
  fun_induction cprintf strings args ap fmt with
  | case1 => rw [printfWith]
  | case2 ap c fmt other ih =>
      rw [hasChar, decide_eq_false other] at known
      rw [printfWith, if_neg other, ih known]
  | case3 ap c percent => rw [printfWith, if_pos (not_not.mp percent), printfWith]
  | case4 ap c percent fmt ih =>
      obtain ⟨_, known⟩ := hasChar_directive percent known
      rw [printfWith, if_pos (not_not.mp percent), printfWith, if_pos rfl, ih known]
  | case5 ap c percent d fmt notD hex ih =>
      obtain ⟨_, known⟩ := hasChar_directive percent known
      rw [printfWith, if_pos (not_not.mp percent), printfWith, if_neg notD, if_pos hex, ih known]
  | case6 ap c percent fmt notD notHex ih =>
      obtain ⟨_, known⟩ := hasChar_directive percent known
      rw [printfWith, if_pos (not_not.mp percent), printfWith, if_neg notD, if_neg notHex,
        if_pos rfl, ih known]
  | case7 ap c percent fmt notD notHex notS ih =>
      obtain ⟨notC, known⟩ := hasChar_directive percent known
      rw [printfWith, if_pos (not_not.mp percent), printfWith, if_neg notD, if_neg notHex,
        if_neg notS, if_neg notC, if_pos rfl, ih known]
  | case8 ap c percent d fmt notD notHex notS notPercent ih =>
      obtain ⟨notC, known⟩ := hasChar_directive percent known
      rw [printfWith, if_pos (not_not.mp percent), printfWith, if_neg notD, if_neg notHex,
        if_neg notS, if_neg notC, if_neg notPercent, ih known]

/-- Wherever `%c` does not occur, which `cprintf` does not know, `printf` and `cprintf`
differ in their tables of digits and in nothing else, so they print the same up to the
case of hexadecimal digits. -/
theorem printf_cprintf (fmt : List Char) (known : hasChar false fmt = false) :
    printfWith strings args lowerDigits false 0 fmt = cprintf strings args 0 fmt ∧
      List.Forall₂ SameDigit (printf strings args fmt) (cprintf strings args 0 fmt) := by
  have lower := printfWith_lower strings args 0 fmt known
  refine ⟨lower, ?_⟩
  rw [← lower]
  exact printfWith_same strings args (fun x => printint_same x true (by decide) (by decide))
    (fun x => printint_same x false (by decide) (by decide)) false 0 fmt

end

/-- A `%` at the end is not printed by either. -/
theorem printf_cprintf_sample : List.Forall₂ SameDigit
    (printf (fun _ => []) (fun _ => 0xbeef) "n=%d x=%x %% %q %".toList)
    (cprintf (fun _ => []) (fun _ => 0xbeef) 0 "n=%d x=%x %% %q %".toList) :=
  (printf_cprintf _ _ _ (by decide)).2

end SlabStudy.Xv6.Printing
