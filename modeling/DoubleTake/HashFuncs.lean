import DoubleTake.Lib.Triangular

/-! The hash function of the maps (`hashfuncs.hh`): `hashAddr` for addresses. -/

namespace DoubleTake

namespace HashFuncs

/-- The statements of `hashAddr`, each of which is `key ^= e`. -/
def hashAddr (addr : BitVec 64) : BitVec 64 :=
  let key := addr
  let key := key ^^^ ((key <<< 15) ^^^ 0xcd7dcd7d#64)
  let key := key ^^^ (key >>> 10)
  let key := key ^^^ (key <<< 3)
  let key := key ^^^ (key >>> 6)
  let key := key ^^^ ((key <<< 2) + (key <<< 14))
  key ^^^ (key >>> 16)

/-! No two addresses have the same hash, so that two keys meet in a bucket only by the remainder. -/

open Triangular

theorem hashAddr_eq : hashAddr =
    (fun key : BitVec 64 => key ^^^ (key >>> 16)) ∘ (fun key : BitVec 64 => key ^^^ ((key <<< 2) + (key <<< 14))) ∘
      (fun key : BitVec 64 => key ^^^ (key >>> 6)) ∘ (fun key : BitVec 64 => key ^^^ (key <<< 3)) ∘
      (fun key : BitVec 64 => key ^^^ (key >>> 10)) ∘ fun key : BitVec 64 => key ^^^ ((key <<< 15) ^^^ 0xcd7dcd7d#64) := rfl

/-- The hash is a permutation of the words of 64 bits. -/
theorem hashAddr_bijective : Function.Bijective hashAddr := by
  rw [hashAddr_eq]
  have hshift : ∀ {n : Nat}, 0 < n → Lower fun x : BitVec 64 => x <<< n := Lower.shiftLeft
  refine (Upper.shiftRight (by decide)).bijective.comp ?_
  refine ((hshift (by decide)).add (hshift (by decide))).bijective.comp ?_
  refine (Upper.shiftRight (by decide)).bijective.comp ?_
  refine (hshift (by decide)).bijective.comp ?_
  refine (Upper.shiftRight (by decide)).bijective.comp ?_
  exact ((hshift (by decide)).xor (Lower.const _)).bijective

end HashFuncs

end DoubleTake
