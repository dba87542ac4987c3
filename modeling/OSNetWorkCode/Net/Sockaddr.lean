/-
# Addresses and their text

A `struct sockaddr_in`: four bytes of IPv4 address and two of port, in network
order.  `inet_ntoa` prints the address in dotted decimal; the servers print an
endpoint as address and port.  Numbers are separated by bytes that are no
digits, so the text of an endpoint tells the endpoint (`keyText_injective`),
and it has at most 21 bytes (`length_keyText_le`).
-/

import OSNetWorkCode.Lib.Decimal

namespace OSNetWorkCode
namespace Net

/-- `sin_addr` and `sin_port`, byte by byte as they go over the network. -/
structure SockaddrIn where
  addr : UInt8 × UInt8 × UInt8 × UInt8
  port : UInt8 × UInt8
  deriving DecidableEq

/-- `ntohs`. -/
def ntohs (port : UInt8 × UInt8) : ℕ := port.1.toNat * 256 + port.2.toNat

/-- `inet_ntoa`: dotted decimal, without leading zeros. -/
def inetNtoa (addr : UInt8 × UInt8 × UInt8 × UInt8) : List UInt8 :=
  decimal addr.1.toNat ++ 46 :: (decimal addr.2.1.toNat ++
    46 :: (decimal addr.2.2.1.toNat ++ 46 :: decimal addr.2.2.2.toNat))

/-- `"%s-%u"` of the address and the port. -/
def keyText (peer : SockaddrIn) : List UInt8 :=
  inetNtoa peer.addr ++ 45 :: decimal (ntohs peer.port)

/-- A byte that is no digit is in no decimal.  The separators of the texts
below are such bytes. -/
theorem notMem_decimal {b : UInt8} (hb : b.toNat < 48) (n : ℕ) : b ∉ decimal n := fun h => by
  have := (Decimal.digit_of_mem h).1
  omega

/-- The port's number tells its two bytes.  With `inetNtoa_injective` an
address can be read off its text. -/
theorem ntohs_injective : Function.Injective ntohs := by
  intro p q h
  have hp := p.2.toNat_lt
  have hq := q.2.toNat_lt
  unfold ntohs at h
  exact Prod.ext (UInt8.toNat_inj.1 (by omega)) (UInt8.toNat_inj.1 (by omega))

/-- The text of an address tells the address.  The dots cannot be taken for
digits, so that the four numbers are found again. -/
theorem inetNtoa_injective : Function.Injective inetNtoa := by
  rintro ⟨a, b, c, d⟩ ⟨a', b', c', d'⟩ h
  have hdot : ∀ n, (46 : UInt8) ∉ decimal n := notMem_decimal (by decide)
  have hinj : ∀ {m n : UInt8}, decimal m.toNat = decimal n.toNat → m = n := fun hmn =>
    UInt8.toNat_inj.1 (Decimal.decimal_injective hmn)
  obtain ⟨ha, h⟩ := Decimal.append_cons_inj (hdot _) (hdot _) h
  obtain ⟨hb, h⟩ := Decimal.append_cons_inj (hdot _) (hdot _) h
  obtain ⟨hc, hd⟩ := Decimal.append_cons_inj (hdot _) (hdot _) h
  exact Prod.ext (hinj ha) (Prod.ext (hinj hb) (Prod.ext (hinj hc) (hinj hd)))

/-- A byte other than a digit and the dot is in no address. -/
theorem notMem_inetNtoa {b : UInt8} (hb : b.toNat < 48) (hdot : b ≠ 46)
    (addr : UInt8 × UInt8 × UInt8 × UInt8) : b ∉ inetNtoa addr := by
  simp [inetNtoa, notMem_decimal hb, hdot]

/-- **The text of an endpoint tells the endpoint.**  The dash is in no address,
so that the text is cut in one way only. -/
theorem keyText_injective : Function.Injective keyText := by
  intro p q h
  have hdash : ∀ addr, (45 : UInt8) ∉ inetNtoa addr := notMem_inetNtoa (by decide) (by decide)
  obtain ⟨haddr, hport⟩ := Decimal.append_cons_inj (hdash _) (hdash _) h
  have h₁ := inetNtoa_injective haddr
  have h₂ := ntohs_injective (Decimal.decimal_injective hport)
  cases p
  cases q
  simp only at h₁ h₂
  rw [h₁, h₂]

/-- A byte other than a digit, the dot and the dash is in no endpoint's
text. -/
theorem notMem_keyText {b : UInt8} (hb : b.toNat < 48) (hdot : b ≠ 46) (hdash : b ≠ 45)
    (peer : SockaddrIn) : b ∉ keyText peer := by
  simp [keyText, notMem_inetNtoa hb hdot, notMem_decimal hb, hdash]

/-- An endpoint's text holds no zero byte: printed into an array it is read
back whole. -/
theorem zero_notMem_keyText (peer : SockaddrIn) : 0 ∉ keyText peer := by
  have haddr := notMem_inetNtoa (b := 0) (by decide) (by decide) peer.addr
  have hport := notMem_decimal (b := 0) (by decide) (ntohs peer.port)
  simp [keyText, haddr, hport]

/-- A byte has at most three digits. -/
theorem length_decimal_byte (b : UInt8) : (decimal b.toNat).length ≤ 3 :=
  Decimal.length_le (by decide) (Nat.lt_of_lt_of_le b.toNat_lt (by decide))

/-- An address has at most fifteen bytes: four numbers of three digits, and
three dots. -/
theorem length_inetNtoa_le (addr : UInt8 × UInt8 × UInt8 × UInt8) :
    (inetNtoa addr).length ≤ 15 := by
  have h₁ := length_decimal_byte addr.1
  have h₂ := length_decimal_byte addr.2.1
  have h₃ := length_decimal_byte addr.2.2.1
  have h₄ := length_decimal_byte addr.2.2.2
  simp only [inetNtoa, List.length_append, List.length_cons]
  omega

/-- **No endpoint's text is longer than 21 bytes:** fifteen for the address,
the dash and five for the port.  So it fits into an array of 64, with its
terminator. -/
theorem length_keyText_le (peer : SockaddrIn) : (keyText peer).length ≤ 21 := by
  have haddr := length_inetNtoa_le peer.addr
  have hport : (decimal (ntohs peer.port)).length ≤ 5 := by
    have h₁ := peer.port.1.toNat_lt
    have h₂ := peer.port.2.toNat_lt
    refine Decimal.length_le (by decide) ?_
    unfold ntohs
    omega
  simp only [keyText, List.length_append, List.length_cons]
  omega

end Net
end OSNetWorkCode
