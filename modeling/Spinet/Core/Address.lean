import Spinet.Library.Numerals
import Mathlib.Data.List.GetD

/-!
# Addresses and their encoding

`to_sockaddr_in`, `from_sockaddr_in`, and `Address::parse`, over `inet_pton` and `inet_ntop`, which
are not part of the sources (`Inet`). A `sockaddr_in` has 16 bytes; from its `sin_addr` on it has
room for 12. `inet_pton` writes the 16 bytes of an IPv6 address there, so the last four of them fall
behind the object, and `inet_ntop` reads four bytes from behind it. Nothing is known of what stands
there, and a copy of the object does not take it along: `beyond` is an argument of what reads it.

`roundTrip_iff` says that exactly the IPv4 literals survive.
-/

namespace Spinet

/-- `AF_INET` and `AF_INET6`. -/
inductive Family
  | AF_INET
  | AF_INET6
deriving DecidableEq, Repr

namespace Family

/-- How many bytes an address of the family has. -/
def size : Family → ℕ
  | AF_INET => 4
  | AF_INET6 => 16

/-- `INET_ADDRSTRLEN` and `INET6_ADDRSTRLEN`. -/
def strLen : Family → ℕ
  | AF_INET => 16
  | AF_INET6 => 46

end Family

/-- The bytes of an address of a family. -/
abbrev AddrBytes (af : Family) : Type := Fin af.size → UInt8

/-- `inet_pton` and `inet_ntop`, with what is documented of them: the text that `inet_ntop` makes is
read back, no text is one of both families, and a buffer of the length meant for the family is
large enough. -/
structure Inet where
  /-- What `inet_pton` reads from a text. -/
  pton : (af : Family) → String → Option (AddrBytes af)
  /-- The text that `inet_ntop` makes. -/
  ntop : (af : Family) → AddrBytes af → String
  /-- The text is read back. -/
  pton_ntop : ∀ af b, pton af (ntop af b) = some b
  /-- No text is one of both families. -/
  disjoint : ∀ s, pton .AF_INET s ≠ none → pton .AF_INET6 s = none
  /-- The text and its terminating zero fit. -/
  length_ntop : ∀ af b, (ntop af b).length < af.strLen

/-- `htons`, where the least significant byte of a number comes first in memory. -/
def htons (port : UInt16) : UInt16 := .ofNat (port.toNat % 256 * 256 + port.toNat / 256)

/-- `ntohs`, which does the same. -/
def ntohs (port : UInt16) : UInt16 := htons port

/-- `::sockaddr_in`, by the bytes that a copy of it has. -/
structure SockaddrIn where
  /-- `sin_family`. -/
  sinFamily : Family
  /-- `sin_port`. -/
  sinPort : UInt16
  /-- The 12 bytes from `sin_addr` to the end: `sin_addr` and `sin_zero`. -/
  sinAddr : Fin 12 → UInt8

/-- What there is behind an object. -/
abbrev Beyond : Type := ℕ → UInt8

namespace SockaddrIn

/-- An object that was zero, once the bytes of an address have been written from `sin_addr` on. -/
def written (af : Family) (port : UInt16) (b : AddrBytes af) : SockaddrIn :=
  { sinFamily := af, sinPort := port, sinAddr := fun i => if h : i < af.size then b ⟨i, h⟩ else 0 }

/-- The bytes from `sin_addr` on, as an address of the family. -/
def addr (address : SockaddrIn) (af : Family) (beyond : Beyond) : AddrBytes af :=
  fun i => if h : i.val < 12 then address.sinAddr ⟨i, h⟩ else beyond (i - 12)

end SockaddrIn

/-- `::inet_ntop`, which fails if the buffer is too small. -/
def Inet.inetNtop (inet : Inet) (af : Family) (b : AddrBytes af) (len : ℕ) : Option String :=
  if (inet.ntop af b).length < len then some (inet.ntop af b) else none

/-- `to_sockaddr_in`; `reason` is what `strerror` says. -/
def toSockaddrIn (inet : Inet) (reason ip : String) (port : UInt16) : Except String SockaddrIn :=
  match inet.pton .AF_INET ip with
  | some b => .ok (.written .AF_INET (htons port) b)
  | none =>
    match inet.pton .AF_INET6 ip with
    | some b => .ok (.written .AF_INET6 (htons port) b)
    | none => .error ("parse failed, reason:" ++ reason)

/-- `from_sockaddr_in`. -/
def fromSockaddrIn (inet : Inet) (beyond : Beyond) (address : SockaddrIn) : String :=
  let af := address.sinFamily
  (inet.inetNtop af (address.addr af beyond) af.strLen).getD ""

/-- `Address::Type`. -/
inductive AddressType
  | IPV4
  | IPV6
deriving DecidableEq, Repr

/-- `Address`. -/
structure Address where
  /-- `type_`. -/
  type : AddressType
  /-- `address_`. -/
  address : String
  /-- `port_`. -/
  port : UInt16
deriving DecidableEq, Repr

/-- The type of an address of a family. -/
def Family.type : Family → AddressType
  | .AF_INET => .IPV4
  | .AF_INET6 => .IPV6

/-- `Address::parse`. -/
def Address.parse (inet : Inet) (reason : String) (beyond : Beyond) (ip : String) (port : UInt16) :
    Except String Address :=
  match toSockaddrIn inet reason ip port with
  | .error err => .error err
  | .ok sockaddr =>
    let af := sockaddr.sinFamily
    match inet.inetNtop af (sockaddr.addr af beyond) af.strLen with
    | some buf => .ok { type := af.type, address := buf, port := port }
    | none => .error ("sockaddr is invalid, reason:" ++ reason)

/-- The family of a literal, and the bytes that `inet_pton` decodes from it. -/
def Inet.decode (inet : Inet) (s : String) : Option ((af : Family) × AddrBytes af) :=
  match inet.pton .AF_INET s with
  | some b => some ⟨.AF_INET, b⟩
  | none => (inet.pton .AF_INET6 s).map fun b => ⟨.AF_INET6, b⟩

/-- The literal `s` survives its encoding, with port `p`. -/
structure RoundTrip (inet : Inet) (s : String) (p : UInt16) : Prop where
  /-- `Address::parse` gives the family of the literal, the text of exactly its bytes, and the
  port. -/
  parse : ∀ af b, inet.decode s = some ⟨af, b⟩ → ∀ reason beyond,
    Address.parse inet reason beyond s p = .ok ⟨af.type, inet.ntop af b, p⟩
  /-- An address so obtained is parsed as itself. -/
  again : ∀ reason beyond a, Address.parse inet reason beyond s p = .ok a → ∀ reason' beyond',
    Address.parse inet reason' beyond' a.address a.port = .ok a
  /-- What comes back from the encoding names the same address. -/
  named : ∀ reason sockaddr, toSockaddrIn inet reason s p = .ok sockaddr → ∀ beyond,
    inet.decode (fromSockaddrIn inet beyond sockaddr) = inet.decode s ∧
      ntohs sockaddr.sinPort = p
  /-- A literal of the family that decodes to other bytes has another encoding. -/
  separate : ∀ af b t b' q, inet.decode s = some ⟨af, b⟩ → inet.decode t = some ⟨af, b'⟩ → b' ≠ b →
    ∀ reason reason', toSockaddrIn inet reason s p ≠ toSockaddrIn inet reason' t q

/-! ## What the encoding keeps -/

variable {inet : Inet} {s : String} {p : UInt16} {af : Family} {b : AddrBytes af}

/-- A port survives its encoding. -/
theorem ntohs_htons (port : UInt16) : ntohs (htons port) = port := by
  have hlt := port.toNat_lt
  refine UInt16.toNat.inj ?_
  unfold ntohs htons
  rw [UInt16.toNat_ofNat', UInt16.toNat_ofNat']
  obtain ⟨hi, lo, hlo, hport⟩ : ∃ hi lo, lo < 256 ∧ port.toNat = 256 * hi + lo :=
    ⟨port.toNat / 256, port.toNat % 256, by omega, by omega⟩
  have hswap : port.toNat % 256 * 256 + port.toNat / 256 = 256 * lo + hi := by omega
  have hfits : 256 * lo + hi < 2 ^ 16 := by omega
  have hlow : (256 * lo + hi) % 256 = hi := by omega
  have hhigh : (256 * lo + hi) / 256 = lo := by omega
  rw [hswap, Nat.mod_eq_of_lt hfits, hlow, hhigh]
  omega

/-- The buffer is large enough. -/
theorem Inet.inetNtop_eq (inet : Inet) (b : AddrBytes af) :
    inet.inetNtop af b af.strLen = some (inet.ntop af b) := if_pos (inet.length_ntop af b)

/-- The text that `inet_ntop` makes is a literal of its family. -/
theorem Inet.decode_ntop (inet : Inet) (b : AddrBytes af) :
    inet.decode (inet.ntop af b) = some ⟨af, b⟩ := by
  cases af with
  | AF_INET => simp only [decode, inet.pton_ntop]
  | AF_INET6 =>
    have hnot : inet.pton .AF_INET (inet.ntop .AF_INET6 b) = none := by
      by_contra hne
      have hnone := inet.disjoint _ hne
      rw [inet.pton_ntop] at hnone
      cases hnone
    simp only [decode, hnot, inet.pton_ntop, Option.map_some]

/-- So texts of different bytes differ. -/
theorem Inet.ntop_injective (inet : Inet) {b b' : AddrBytes af}
    (h : inet.ntop af b = inet.ntop af b') : b = b' := by
  have hpton := inet.pton_ntop af b
  rw [h, inet.pton_ntop] at hpton
  exact (Option.some.inj hpton).symm

/-- `to_sockaddr_in` writes what `inet_pton` decodes. -/
theorem toSockaddrIn_of_decode (h : inet.decode s = some ⟨af, b⟩) (reason : String) (p : UInt16) :
    toSockaddrIn inet reason s p = .ok (.written af (htons p) b) := by
  unfold Inet.decode at h
  unfold toSockaddrIn
  cases h4 : inet.pton .AF_INET s with
  | some b₄ =>
    rw [h4] at h
    obtain ⟨rfl, heq⟩ := Sigma.mk.inj (Option.some.inj h)
    rw [eq_of_heq heq]
  | none =>
    rw [h4] at h
    obtain ⟨b₆, h6, heq⟩ := Option.map_eq_some_iff.1 h
    obtain ⟨rfl, heq⟩ := Sigma.mk.inj heq
    simp only [h6, eq_of_heq heq]

/-- The bytes that are read from behind the `sin_addr` of an object: those that have been written,
as far as the object goes. -/
theorem addr_written (port : UInt16) (b : AddrBytes af) (beyond : Beyond) (i : Fin af.size) :
    (SockaddrIn.written af port b).addr af beyond i =
      if i.val < 12 then b i else beyond (i - 12) := by
  unfold SockaddrIn.addr SockaddrIn.written
  split
  · exact dif_pos i.isLt
  · rfl

/-- Those of an IPv4 address are all there. -/
theorem addr_written_inet (port : UInt16) (b : AddrBytes .AF_INET) (beyond : Beyond) :
    (SockaddrIn.written .AF_INET port b).addr .AF_INET beyond = b := by
  funext i
  have hlt : i.val < 4 := i.isLt
  exact (addr_written port b beyond i).trans (if_pos (by omega))

/-- `Address::parse` of a literal. -/
theorem parse_of_decode (h : inet.decode s = some ⟨af, b⟩) (reason : String) (beyond : Beyond)
    (p : UInt16) : Address.parse inet reason beyond s p =
      .ok ⟨af.type, inet.ntop af ((SockaddrIn.written af (htons p) b).addr af beyond), p⟩ := by
  simp only [Address.parse, toSockaddrIn_of_decode h, SockaddrIn.written, Inet.inetNtop_eq]

/-- An IPv4 literal survives. -/
theorem roundTrip_of_inet {b : AddrBytes .AF_INET} (h : inet.decode s = some ⟨.AF_INET, b⟩)
    (p : UInt16) : RoundTrip inet s p := by
  have hparse : ∀ reason beyond, Address.parse inet reason beyond s p =
      .ok ⟨.IPV4, inet.ntop .AF_INET b, p⟩ := by
    intro reason beyond
    rw [parse_of_decode h, addr_written_inet]
    rfl
  constructor
  · intro af b' h' reason beyond
    obtain ⟨rfl, heq⟩ := Sigma.mk.inj (Option.some.inj (h.symm.trans h'))
    obtain rfl := eq_of_heq heq
    exact hparse reason beyond
  · intro reason beyond a ha reason' beyond'
    obtain rfl := Except.ok.inj ((hparse reason beyond).symm.trans ha)
    rw [parse_of_decode (inet.decode_ntop b), addr_written_inet]
    rfl
  · intro reason sockaddr hs beyond
    obtain rfl := Except.ok.inj ((toSockaddrIn_of_decode h reason p).symm.trans hs)
    refine ⟨?_, ntohs_htons p⟩
    have hfrom : fromSockaddrIn inet beyond (.written .AF_INET (htons p) b) =
        inet.ntop .AF_INET b := by
      have hntop : inet.inetNtop .AF_INET
          ((SockaddrIn.written .AF_INET (htons p) b).addr .AF_INET beyond) Family.AF_INET.strLen =
          some (inet.ntop .AF_INET b) := by
        rw [Inet.inetNtop_eq, addr_written_inet]
      unfold fromSockaddrIn
      exact congrArg (Option.getD · "") hntop
    rw [hfrom, inet.decode_ntop, h]
  · intro af b₁ t b' q h₁ ht hne reason reason' heq
    obtain ⟨rfl, hb⟩ := Sigma.mk.inj (Option.some.inj (h.symm.trans h₁))
    obtain rfl := eq_of_heq hb
    rw [toSockaddrIn_of_decode h, toSockaddrIn_of_decode ht] at heq
    -- Equal objects have equal bytes.
    have haddr := congrArg (fun a : SockaddrIn => a.sinAddr) (Except.ok.inj heq)
    refine hne (funext fun i => ?_)
    have hlt : i.val < 4 := i.isLt
    have hbyte := congrFun haddr ⟨i, by omega⟩
    have hwritten : ∀ x : AddrBytes .AF_INET, ∀ q,
        (SockaddrIn.written .AF_INET q x).sinAddr ⟨i, by omega⟩ = x i := fun x q => dif_pos i.isLt
    rw [hwritten, hwritten] at hbyte
    exact hbyte.symm

/-- An IPv6 literal does not: its last bytes are read from behind the object. -/
theorem not_roundTrip_of_inet6 {b : AddrBytes .AF_INET6} (h : inet.decode s = some ⟨.AF_INET6, b⟩)
    (p : UInt16) : ¬ RoundTrip inet s p := by
  intro hround
  have hlast : 15 < Family.AF_INET6.size := by decide
  have hparse := hround.parse _ _ h "" fun _ => b ⟨15, hlast⟩ + 1
  rw [parse_of_decode h] at hparse
  have htext := inet.ntop_injective (congrArg Address.address (Except.ok.inj hparse))
  have hbyte := congrFun htext ⟨15, hlast⟩
  rw [addr_written, if_neg (Nat.not_lt.2 (by norm_num))] at hbyte
  simp at hbyte

/-- Two IPv6 literals whose addresses differ in their last four bytes only have one encoding. -/
theorem toSockaddrIn_eq_of_inet6 {t : String} {b b' : AddrBytes .AF_INET6}
    (hs : inet.decode s = some ⟨.AF_INET6, b⟩) (ht : inet.decode t = some ⟨.AF_INET6, b'⟩)
    (h : ∀ i, i.val < 12 → b i = b' i) (reason : String) (p : UInt16) :
    toSockaddrIn inet reason s p = toSockaddrIn inet reason t p := by
  rw [toSockaddrIn_of_decode hs, toSockaddrIn_of_decode ht]
  have haddr : (SockaddrIn.written .AF_INET6 (htons p) b).sinAddr =
      (SockaddrIn.written .AF_INET6 (htons p) b').sinAddr := by
    funext i
    have hlt : i.val < Family.AF_INET6.size := Nat.lt_trans i.isLt (by decide)
    have hwritten : ∀ x : AddrBytes .AF_INET6,
        (SockaddrIn.written .AF_INET6 (htons p) x).sinAddr i = x ⟨i, hlt⟩ := fun x => dif_pos hlt
    rw [hwritten, hwritten]
    exact h ⟨i, hlt⟩ i.isLt
  exact congrArg Except.ok (congrArg (SockaddrIn.mk .AF_INET6 (htons p)) haddr)

/-- A literal that `inet_pton` accepts survives its encoding exactly if it is one of IPv4. -/
theorem roundTrip_iff (inet : Inet) (s : String) (p : UInt16) (h : inet.decode s ≠ none) :
    RoundTrip inet s p ↔ inet.pton .AF_INET s ≠ none := by
  obtain ⟨⟨af, b⟩, hdecode⟩ := Option.ne_none_iff_exists'.1 h
  cases af with
  | AF_INET =>
    refine ⟨fun _ hnone => ?_, fun _ => roundTrip_of_inet hdecode p⟩
    rw [Inet.decode, hnone] at hdecode
    obtain ⟨b₆, -, heq⟩ := Option.map_eq_some_iff.1 hdecode
    cases heq
  | AF_INET6 =>
    refine ⟨fun hround => absurd hround (not_roundTrip_of_inet6 hdecode p), fun hne => ?_⟩
    obtain ⟨b₄, h₄⟩ := Option.ne_none_iff_exists'.1 hne
    rw [Inet.decode, h₄] at hdecode
    cases hdecode

/-! ## Texts that can be run -/

namespace Plain

open Numerals

/-- How many numbers there are in the text of an address. -/
def count : Family → ℕ
  | .AF_INET => 4
  | .AF_INET6 => 8

/-- How far they go. -/
def bound : Family → ℕ
  | .AF_INET => 256
  | .AF_INET6 => 65536

/-- One of the bytes of an IPv6 address. -/
def byte (b : AddrBytes .AF_INET6) (i : Fin 16) : ℕ := (b i).toNat

/-- The numbers themselves. -/
def numbers : (af : Family) → AddrBytes af → List ℕ
  | .AF_INET, b => List.ofFn fun i : Fin 4 => (b i).toNat
  | .AF_INET6, b => List.ofFn fun i : Fin 8 =>
    256 * byte b ⟨2 * i, by omega⟩ + byte b ⟨2 * i + 1, by omega⟩

/-- The address that has these numbers in its text. -/
def ofNumbers (ns : List ℕ) : (af : Family) → Option (AddrBytes af)
  | .AF_INET =>
    if ns.length = count .AF_INET ∧ ∀ n ∈ ns, n < bound .AF_INET then
      some fun i => .ofNat (ns.getD i 0)
    else none
  | .AF_INET6 =>
    if ns.length = count .AF_INET6 ∧ ∀ n ∈ ns, n < bound .AF_INET6 then
      some fun i => .ofNat
        (if i.val % 2 = 0 then ns.getD (i / 2) 0 / 256 else ns.getD (i / 2) 0 % 256)
    else none

/-- The base and the separator of the texts of a family. -/
def format : Family → ℕ × Char
  | .AF_INET => (10, '.')
  | .AF_INET6 => (16, ':')

/-- The text of an address, with no group of zeros left out. -/
def ntop (af : Family) (b : AddrBytes af) : String :=
  .ofList (write (format af).1 (format af).2 (numbers af b))

/-- The address of a text. -/
def pton (af : Family) (s : String) : Option (AddrBytes af) :=
  (read (format af).1 (format af).2 s.toList).bind fun ns => ofNumbers ns af

/-- They are as many and go as far as they may. -/
theorem numbers_spec (af : Family) (b : AddrBytes af) :
    (numbers af b).length = count af ∧ ∀ n ∈ numbers af b, n < bound af := by
  cases af with
  | AF_INET =>
    refine ⟨List.length_ofFn, fun n hn => ?_⟩
    obtain ⟨i, rfl⟩ := List.mem_ofFn.1 hn
    exact (b i).toNat_lt
  | AF_INET6 =>
    refine ⟨List.length_ofFn, fun n hn => ?_⟩
    obtain ⟨i, rfl⟩ := List.mem_ofFn.1 hn
    have hbyte : ∀ j, byte b j < 256 := fun j => (b j).toNat_lt
    have hhigh := hbyte ⟨2 * i, by omega⟩
    have hlow := hbyte ⟨2 * i + 1, by omega⟩
    have hbound : bound .AF_INET6 = 65536 := rfl
    omega

/-- So there are some. -/
theorem numbers_ne_nil (af : Family) (b : AddrBytes af) : numbers af b ≠ [] := by
  refine List.ne_nil_of_length_pos ?_
  rw [(numbers_spec af b).1]
  cases af <;> decide

/-- An address is known by its numbers. -/
theorem ofNumbers_numbers (af : Family) (b : AddrBytes af) :
    ofNumbers (numbers af b) af = some b := by
  have hspec := numbers_spec af b
  cases af with
  | AF_INET =>
    rw [ofNumbers, if_pos hspec]
    refine congrArg some (funext fun i => UInt8.toNat.inj ?_)
    have hlt : i.val < 4 := i.isLt
    have hget : (numbers .AF_INET b).getD i 0 = (b i).toNat := by
      rw [List.getD_eq_getElem _ 0 (hspec.1.symm ▸ hlt)]
      exact List.getElem_ofFn ..
    rw [UInt8.toNat_ofNat', hget, Nat.mod_eq_of_lt (b i).toNat_lt]
  | AF_INET6 =>
    rw [ofNumbers, if_pos hspec]
    refine congrArg some (funext fun i => UInt8.toNat.inj ?_)
    have hlt : i.val < 16 := i.isLt
    have hbyte : ∀ j, byte b j < 256 := fun j => (b j).toNat_lt
    have hget : (numbers .AF_INET6 b).getD (i / 2) 0 =
        256 * byte b ⟨2 * (i / 2), by omega⟩ + byte b ⟨2 * (i / 2) + 1, by omega⟩ := by
      have hhalf : i.val / 2 < 8 := by omega
      rw [List.getD_eq_getElem _ 0 (hspec.1.symm ▸ hhalf)]
      exact List.getElem_ofFn ..
    have hhigh := hbyte ⟨2 * (i / 2), by omega⟩
    have hlow := hbyte ⟨2 * (i / 2) + 1, by omega⟩
    have hself : byte b i = (b i).toNat := rfl
    rw [UInt8.toNat_ofNat', hget, ← hself]
    split
    · have hi : (⟨2 * (i / 2), by omega⟩ : Fin 16) = i := Fin.ext (by simp only; omega)
      rw [hi] at hhigh ⊢
      omega
    · have hi : (⟨2 * (i / 2) + 1, by omega⟩ : Fin 16) = i := Fin.ext (by simp only; omega)
      rw [hi] at hlow ⊢
      omega

/-- The texts are read back. -/
theorem pton_ntop (af : Family) (b : AddrBytes af) : pton af (ntop af b) = some b := by
  have hread : read (format af).1 (format af).2 (write (format af).1 (format af).2 (numbers af b)) =
      some (numbers af b) := by
    cases af with
    | AF_INET => exact read_write (by decide) (by decide) rfl (numbers_ne_nil _ b)
    | AF_INET6 => exact read_write (by decide) (by decide) rfl (numbers_ne_nil _ b)
  rw [pton, ntop, String.toList_ofList, hread, Option.bind_some, ofNumbers_numbers]

/-- A text of IPv4 has no colon, and one of IPv6 has seven. -/
theorem pton_disjoint (s : String) (h : pton .AF_INET s ≠ none) : pton .AF_INET6 s = none := by
  obtain ⟨b, hb⟩ := Option.ne_none_iff_exists'.1 h
  obtain ⟨ns, hns, -⟩ := Option.bind_eq_some_iff.1 hb
  have hcolon : ':' ∉ s.toList := by
    intro hmem
    rcases digitValue_of_read hns hmem with heq | hdigit
    · exact absurd heq (by decide)
    · exact hdigit rfl
  by_contra hne
  obtain ⟨b₆, hb₆⟩ := Option.ne_none_iff_exists'.1 hne
  obtain ⟨ns₆, hns₆, hof⟩ := Option.bind_eq_some_iff.1 hb₆
  -- Without a colon the text is a single number.
  have hone : ns₆.length = 1 := by
    have hlength := (forall₂_of_read hns₆).length_eq
    rw [show (format .AF_INET6).2 = ':' from rfl, List.splitOn_eq_singleton hcolon] at hlength
    exact hlength.symm
  rw [ofNumbers, if_neg fun hall => by
    have height : ns₆.length = 8 := hall.1
    omega] at hof
  cases hof

/-- The texts fit. -/
theorem length_ntop (af : Family) (b : AddrBytes af) : (ntop af b).length < af.strLen := by
  obtain ⟨hlength, hlt⟩ := numbers_spec af b
  rw [ntop, String.length_ofList]
  cases af with
  | AF_INET =>
    have hwrite : (write 10 '.' (numbers .AF_INET b)).length <
        (3 + 1) * (numbers .AF_INET b).length :=
      length_write_lt (by decide) (by decide) (numbers_ne_nil _ b)
        fun n hn => Nat.lt_trans (hlt n hn) (by decide)
    rw [hlength] at hwrite
    exact hwrite
  | AF_INET6 =>
    have hwrite : (write 16 ':' (numbers .AF_INET6 b)).length <
        (4 + 1) * (numbers .AF_INET6 b).length :=
      length_write_lt (by decide) (by decide) (numbers_ne_nil _ b) hlt
    rw [hlength] at hwrite
    exact Nat.lt_trans hwrite (by decide)

end Plain

/-- Texts in which no group of zeros is left out and no number begins with zeros. -/
def plainInet : Inet where
  pton := Plain.pton
  ntop := Plain.ntop
  pton_ntop := Plain.pton_ntop
  disjoint := Plain.pton_disjoint
  length_ntop := Plain.length_ntop

/-- The statement is about something: a literal of either family. -/
theorem roundTrip_plainInet : RoundTrip plainInet "192.168.0.1" 80 ∧
    ¬ RoundTrip plainInet "2001:db8:1:2:3:4:5:6" 80 :=
  ⟨(roundTrip_iff plainInet _ 80 (by decide)).2 (by decide),
    (roundTrip_iff plainInet _ 80 (by decide)).not.2 (by decide)⟩

/-- Where the bytes behind the object are all `9`, the text that `Address::parse` gives for an IPv6
literal ends in them, and the objects of two literals that differ only there are equal. -/
theorem parse_loses_bytes :
    (plainInet.pton .AF_INET6 "2001:db8:1:2:3:4:5:6" ≠ none ∧
      plainInet.pton .AF_INET6 "2001:db8:1:2:3:4:5:7" ≠ none) ∧
    plainInet.pton .AF_INET6 "2001:db8:1:2:3:4:5:6" ≠
      plainInet.pton .AF_INET6 "2001:db8:1:2:3:4:5:7" ∧
    Address.parse plainInet "" (fun _ => 9) "2001:db8:1:2:3:4:5:6" 80 =
      .ok ⟨.IPV6, "2001:db8:1:2:3:4:909:909", 80⟩ ∧
    toSockaddrIn plainInet "" "2001:db8:1:2:3:4:5:6" 80 =
      toSockaddrIn plainInet "" "2001:db8:1:2:3:4:5:7" 80 ∧
    ¬ RoundTrip plainInet "2001:db8:1:2:3:4:5:6" 80 := by
  have hparse : Address.parse plainInet "" (fun _ => 9) "2001:db8:1:2:3:4:5:6" 80 =
      .ok ⟨.IPV6, "2001:db8:1:2:3:4:909:909", 80⟩ := by decide
  have hdecode : ∀ s : String, (hnot : plainInet.pton .AF_INET s = none) →
      (hsome : (plainInet.pton .AF_INET6 s).isSome) →
        plainInet.decode s = some ⟨.AF_INET6, (plainInet.pton .AF_INET6 s).get hsome⟩ := by
    intro s hnot hsome
    rw [Inet.decode, hnot]
    exact Option.map_eq_some_iff.2 ⟨_, (Option.some_get hsome).symm, rfl⟩
  refine ⟨⟨by decide, by decide⟩, by decide, hparse, ?_, fun hround => ?_⟩
  · exact toSockaddrIn_eq_of_inet6 (hdecode _ (by decide) (by decide))
      (hdecode _ (by decide) (by decide)) (by decide) "" 80
  · -- Parsed again where other bytes stand behind the object, the text becomes another.
    exact absurd (hround.again _ _ _ hparse "" fun _ => 8) (by decide)

end Spinet
