import Coins.Quotes.Cex2b
import Coins.Quotes.Contracts
import Coins.Quotes.Lengths
import Coins.Quotes.Prices

/-!
# Records in their buffers

In none of the converters a field is looked at for its length before it is copied, so a record stays in its 256
bytes if and only if its fields are short enough together.
-/

open Coins.Memory Coins.Numeral Coins.Questions

namespace Coins.Quotes

/-- **Nothing is written behind a buffer** if and only if the fields fit. -/
theorem records_contained (old : (c : Cell) → c.Ans) (p : Bitfin2b.Processor) (line : List Byte) (m : Mem Byte)
    (ln : Int) (lz : Nat) :
    (Bitfin2b.Prices.Contained old p line ↔ Bitfin2b.Prices.Fits old p line) ∧
      (Cex2b.Contained old line ↔ Cex2b.Fits old line) ∧
      (Hit2b.Contained old line ↔ Hit2b.Fits old line) ∧
      (Ok2b.Contracts.Contained old m ln lz ↔ Ok2b.Contracts.Fits m ln lz) := by
  refine ⟨?_, ?_, ?_, ?_⟩
  · exact Bitfin2b.Prices.contained_iff old p line
  · exact Cex2b.contained_iff old line
  · exact Hit2b.contained_iff old line
  · exact Ok2b.Contracts.contained_iff old m ln lz

/-! ## A long price -/

def subscribed : List Byte :=
  ascii "1.000\t\x7b\"event\":\"subscribed\",\"channel\":\"ticker\",\"chanId\":0,\"pair\":\"BTCUSD\"\x7d\n"

/-- An event whose bid has 256 digits. -/
def long_bid : List Byte := ascii "2.000\t[0," ++ List.replicate 256 (chr '7') ++ ascii ",1,2,3,4]\n"

set_option maxRecDepth 10000 in
theorem long_bid_lengths :
    Bitfin2b.Prices.lengths (Bitfin2b.procln Bitfin2b.init [] subscribed).1 (blank .null) long_bid = [281, 26] := by
  decide +kernel

theorem long_bid_outside : ¬ ∀ (old : (c : Cell) → c.Ans) (line : List Byte),
    Bitfin2b.Prices.Contained old (Bitfin2b.procln Bitfin2b.init [] subscribed).1 line := by
  intro h
  have hfit := h blank long_bid
  rw [Bitfin2b.Prices.contained_iff, Bitfin2b.Prices.fits_lengths, long_bid_lengths] at hfit
  exact absurd (hfit 281 List.mem_cons_self) (by decide)

end Coins.Quotes
