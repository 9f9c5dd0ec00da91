import FluentNet.Library.PowersOfTwo
import FluentNet.Utils.StringUtils
import Mathlib.Tactic.IntervalCases
set_option autoImplicit false

namespace FluentNet

def AF_INET : Nat := 2

structure ByteOrder where
  htons : BitVec 16 → BitVec 16
  ntohs : BitVec 16 → BitVec 16
  htonl : BitVec 32 → BitVec 32
  ntohl : BitVec 32 → BitVec 32
  ntohs_htons : ∀ v, ntohs (htons v) = v
  ntohl_htonl : ∀ v, ntohl (htonl v) = v

def swap16 (v : BitVec 16) : BitVec 16 := v <<< 8 ||| v >>> 8

def swap32 (v : BitVec 32) : BitVec 32 :=
  v <<< 24 ||| (v &&& 0xff00) <<< 8 ||| (v >>> 8 &&& 0xff00) ||| v >>> 24

theorem swap16_swap16 (v : BitVec 16) : swap16 (swap16 v) = v := by
  refine BitVec.eq_of_getLsbD_eq (fun i hi => ?_)
  interval_cases i <;> simp [swap16]

theorem swap32_swap32 (v : BitVec 32) : swap32 (swap32 v) = v := by
  refine BitVec.eq_of_getLsbD_eq (fun i hi => ?_)
  interval_cases i <;> simp [swap32]

def ByteOrder.littleEndian : ByteOrder where
  htons := swap16
  ntohs := swap16
  htonl := swap32
  ntohl := swap32
  ntohs_htons := swap16_swap16
  ntohl_htonl := swap32_swap32

structure InetAddress where
  sin_family : Nat
  sin_port : BitVec 16
  s_addr : BitVec 32
  deriving DecidableEq

/-- `std::string::substr` on a range; a position behind the end is out of range. -/
def substr (s : List UInt8) (p : Nat × Nat) : Option (List UInt8) :=
  if p.1 ≤ s.length then some (Tokens.slice s p) else none

namespace InetAddress

variable (order : ByteOrder)

def ofIp (ip : BitVec 32) (port : BitVec 16) : InetAddress :=
  ⟨AF_INET,order.htons port,order.htonl ip⟩

def rawPort (a : InetAddress) : BitVec 16 := order.ntohs a.sin_port

def rawIp (a : InetAddress) : BitVec 32 := order.ntohl a.s_addr

def ipToStringLoop (addr : BitVec 32) : Nat → List UInt8 → List UInt8
  | 0, s => s
  | chunk+1, s => ipToStringLoop addr chunk
      (s ++ (if 3 > chunk then [(46 : UInt8)] else []) ++ decimal ((addr >>> (chunk <<< 3)) &&& 0xff).toNat)

def ipToString (a : InetAddress) : List UInt8 :=
  ipToStringLoop (order.ntohl a.s_addr) 4 []

def toString (a : InetAddress) : List UInt8 :=
  ipToString order a ++ [58] ++ decimal (order.ntohs a.sin_port).toNat

def shiftIn (ip : BitVec 32) (chunk : List UInt8) : BitVec 32 := ip <<< 8 ||| toDec 32 chunk

def stringToIp (s : List UInt8) : Option (BitVec 32) := do
  let pivots ← split s 46
  pivots.foldlM (fun ip p => do
    let chunk ← substr s p
    some (shiftIn ip chunk)) 0

def ofIpText (ip : List UInt8) (port : BitVec 16) : Option InetAddress := do
  let ip ← stringToIp ip
  some (ofIp order ip port)

/-- The constructor from a whole address; it asserts that there are two parts. -/
def ofText (address : List UInt8) : Option InetAddress := do
  match ← split address 58 with
  | [ip,port] =>
    let port ← substr address port
    let ip ← substr address ip
    let ip ← stringToIp ip
    some ⟨AF_INET,order.htons (toDec 16 port),order.htonl ip⟩
  | _ => none

end InetAddress

theorem substr_token {s : List UInt8} {sep : UInt8 → Bool} {r : Nat × Nat}
    (hr : r ∈ Tokens.tokens sep s) : substr s r = some (Tokens.slice s r) := by
  have hrun := (Tokens.mem_tokens s r.1 r.2).mp hr
  have h1 := hrun.nonempty
  have h2 := hrun.bound
  exact if_pos (by omega)

namespace InetAddress

theorem stringToIp_eq {s : List UInt8} (hlen : s.length < 2^31) :
    stringToIp s = some ((Tokens.words (· == 46) s).foldl shiftIn 0) := by
  have hfold : ∀ (pivots : List (Nat × Nat)) (ip : BitVec 32),
      (∀ r ∈ pivots, r ∈ Tokens.tokens (· == 46) s) →
      pivots.foldlM (fun ip p => (substr s p).bind (fun chunk => some (shiftIn ip chunk))) ip =
        some ((pivots.map (Tokens.slice s)).foldl shiftIn ip) := by
    intro pivots
    induction pivots with
    | nil => exact fun ip _ => rfl
    | cons r pivots ih =>
      intro ip hp
      rw [List.foldlM_cons,substr_token (hp r List.mem_cons_self)]
      exact ih _ (fun q hq => hp q (List.mem_cons_of_mem _ hq))
  rw [stringToIp,split_eq 46 hlen]
  exact hfold _ 0 (fun _ h => h)

def octet (ip : BitVec 32) (chunk : Nat) : BitVec 32 := (ip >>> (chunk <<< 3)) &&& 0xff

theorem octet_getLsbD (ip : BitVec 32) (chunk i : Nat) :
    (octet ip chunk).getLsbD i = (decide (i < 8) && ip.getLsbD (chunk*8+i)) := by
  have hmask : (0xff : BitVec 32).getLsbD i = decide (i < 8) := PowersOfTwo.getLsbD_mask rfl i
  rw [octet,BitVec.getLsbD_and,hmask,BitVec.getLsbD_ushiftRight,Nat.shiftLeft_eq,Bool.and_comm]

/-- The next octet extends the address that was read by eight bits. -/
theorem octet_next (ip : BitVec 32) (chunk : Nat) :
    (ip >>> (chunk*8+8)) <<< 8 ||| octet ip chunk = ip >>> (chunk*8) := by
  refine BitVec.eq_of_getLsbD_eq (fun i hi => ?_)
  rw [BitVec.getLsbD_or,BitVec.getLsbD_shiftLeft,octet_getLsbD,BitVec.getLsbD_ushiftRight,
    BitVec.getLsbD_ushiftRight,decide_eq_true hi]
  by_cases h8 : i < 8
  · simp [h8]
  · have hpos : chunk*8+8+(i-8) = chunk*8+i := by omega
    simp [h8,hpos]

theorem shiftIn_octet (ip : BitVec 32) (chunk : Nat) :
    shiftIn (ip >>> (chunk*8+8)) (decimal (octet ip chunk).toNat) = ip >>> (chunk*8) := by
  rw [shiftIn,toDec_decimal,BitVec.ofNat_toNat,BitVec.setWidth_eq,octet_next]

def octets (ip : BitVec 32) : List (List UInt8) :=
  [3,2,1,0].map (fun chunk => decimal (octet ip chunk).toNat)

theorem octets_join (ip : BitVec 32) : (octets ip).foldl shiftIn 0 = ip := by
  have htop : (0 : BitVec 32) = ip >>> (3*8+8) := by
    refine BitVec.eq_of_getLsbD_eq (fun i hi => ?_)
    rw [BitVec.getLsbD_ushiftRight,BitVec.getLsbD_of_ge ip _ (by omega)]
    exact BitVec.getLsbD_zero
  simp only [octets,List.map_cons,List.map_nil,List.foldl_cons,List.foldl_nil]
  rw [htop,shiftIn_octet ip 3,shiftIn_octet ip 2,shiftIn_octet ip 1,shiftIn_octet ip 0]
  rfl

theorem octet_lt (ip : BitVec 32) (chunk : Nat) : (octet ip chunk).toNat < 10^3 := by
  rw [octet,BitVec.toNat_and]
  exact Nat.lt_of_le_of_lt Nat.and_le_right (by decide)

section Text

variable (order : ByteOrder)

theorem ipToString_eq (ip : BitVec 32) (port : BitVec 16) :
    ipToString order (ofIp order ip port) = [46].intercalate (octets ip) := by
  rw [ipToString,ofIp,order.ntohl_htonl]
  simp [ipToStringLoop,octets,octet,List.intercalate_cons_cons]

theorem ipToString_length (ip : BitVec 32) (port : BitVec 16) :
    (ipToString order (ofIp order ip port)).length ≤ 15 := by
  have hlen : ∀ chunk, (decimal (octet ip chunk).toNat).length ≤ 3 :=
    fun chunk => decimal_length_le (by decide) (octet_lt ip chunk)
  have h3 := hlen 3
  have h2 := hlen 2
  have h1 := hlen 1
  have h0 := hlen 0
  rw [ipToString_eq]
  simp only [octets,List.map_cons,List.map_nil,List.intercalate_cons_cons,
    List.intercalate_singleton,List.length_append,List.length_singleton]
  omega

theorem stringToIp_ipToString (ip : BitVec 32) (port : BitVec 16) :
    stringToIp (ipToString order (ofIp order ip port)) = some ip := by
  have hlen := ipToString_length order ip port
  rw [stringToIp_eq (by omega),ipToString_eq,Tokens.words_intercalate rfl,octets_join]
  intro w hw
  obtain ⟨chunk,_,rfl⟩ := List.mem_map.mp hw
  exact ⟨decimal_ne_nil _,fun c hc => decimal_ne hc (.inl (by decide))⟩

variable {order} in
theorem mem_ipToString {ip : BitVec 32} {port : BitVec 16} {c : UInt8}
    (hc : c ∈ ipToString order (ofIp order ip port)) : c = 46 ∨ ∃ n, c ∈ decimal n := by
  rw [ipToString_eq] at hc
  simp only [octets,List.map_cons,List.map_nil,List.intercalate_cons_cons,
    List.intercalate_singleton,List.mem_append,List.mem_singleton] at hc
  rcases hc with ((hc | hc) | ((hc | hc) | ((hc | hc) | hc)))
  all_goals first | exact .inl hc | exact .inr ⟨_,hc⟩

theorem ipToString_ne_nil (ip : BitVec 32) (port : BitVec 16) :
    ipToString order (ofIp order ip port) ≠ [] := by
  rw [ipToString_eq,octets,List.map_cons,List.map_cons,List.intercalate_cons_cons,
    List.append_assoc]
  exact List.append_ne_nil_of_left_ne_nil (decimal_ne_nil _) _

theorem toString_eq (ip : BitVec 32) (port : BitVec 16) :
    toString order (ofIp order ip port) =
      [58].intercalate [ipToString order (ofIp order ip port),decimal port.toNat] := by
  have hport : order.ntohs (ofIp order ip port).sin_port = port := order.ntohs_htons port
  rw [toString,hport,List.intercalate_cons_cons,List.intercalate_singleton]

theorem toString_length (ip : BitVec 32) (port : BitVec 16) :
    (toString order (ofIp order ip port)).length ≤ 21 := by
  have hip := ipToString_length order ip port
  have hport : (decimal port.toNat).length ≤ 5 :=
    decimal_length_le (by decide) (by have := port.isLt; omega)
  rw [toString_eq,List.intercalate_cons_cons,List.intercalate_singleton,List.length_append,
    List.length_append,List.length_singleton]
  omega

/-- A whole address has two words around its colon: the dotted part and the port. -/
theorem toString_words (ip : BitVec 32) (port : BitVec 16) :
    Tokens.words (· == 58) (toString order (ofIp order ip port)) =
      [ipToString order (ofIp order ip port),decimal port.toNat] := by
  rw [toString_eq]
  refine Tokens.words_intercalate rfl _ (fun w hw => ?_)
  simp only [List.mem_cons,List.not_mem_nil,or_false] at hw
  rcases hw with rfl | rfl
  · refine ⟨ipToString_ne_nil order ip port,fun c hc => ?_⟩
    rcases mem_ipToString hc with rfl | ⟨n,hn⟩
    · rfl
    · exact decimal_ne hn (.inr (by decide))
  · exact ⟨decimal_ne_nil _,fun c hc => decimal_ne hc (.inr (by decide))⟩

theorem ofText_toString (ip : BitVec 32) (port : BitVec 16) :
    ofText order (toString order (ofIp order ip port)) = some (ofIp order ip port) := by
  have hlen := toString_length order ip port
  obtain ⟨r0,rest,htokens,h0,hrest⟩ := List.map_eq_cons_iff.mp (toString_words order ip port)
  obtain ⟨r1,last,rfl,h1,hnil⟩ := List.map_eq_cons_iff.mp hrest
  obtain rfl := List.map_eq_nil_iff.mp hnil
  have hsub0 := substr_token (htokens ▸ List.mem_cons_self)
  have hsub1 := substr_token (htokens ▸ List.mem_cons_of_mem _ List.mem_cons_self)
  rw [h0] at hsub0
  rw [h1] at hsub1
  rw [ofText,split_eq 58 (by omega),htokens]
  simp only [Option.bind_eq_bind,Option.bind_some]
  rw [hsub0,hsub1]
  simp only [Option.bind_some]
  rw [stringToIp_ipToString order,toDec_decimal,BitVec.ofNat_toNat,BitVec.setWidth_eq]
  rfl

end Text

/-- The text of an address is read back as the same address. -/
theorem text_roundtrip (order : ByteOrder) (ip : BitVec 32) (port : BitVec 16) :
    (∃ a, ofText order (toString order (ofIp order ip port)) = some a ∧
        rawIp order a = ip ∧ rawPort order a = port) ∧
      ∀ port', ∃ a, ofIpText order (ipToString order (ofIp order ip port)) port' = some a ∧
        rawIp order a = ip ∧ rawPort order a = port' := by
  have hip : ∀ port, rawIp order (ofIp order ip port) = ip := fun _ => order.ntohl_htonl ip
  have hport : ∀ port, rawPort order (ofIp order ip port) = port := order.ntohs_htons
  refine ⟨⟨_,ofText_toString order ip port,hip port,hport port⟩,fun port' => ?_⟩
  refine ⟨ofIp order ip port',?_,hip port',hport port'⟩
  rw [ofIpText,stringToIp_ipToString order]
  rfl

theorem text_roundtrip_loopback :
    (∃ a, ofText .littleEndian (toString .littleEndian (ofIp .littleEndian 0x7f000001 2564)) = some a ∧
        rawIp .littleEndian a = 0x7f000001 ∧ rawPort .littleEndian a = 2564) ∧
      ∀ port', ∃ a, ofIpText .littleEndian
          (ipToString .littleEndian (ofIp .littleEndian 0x7f000001 2564)) port' = some a ∧
        rawIp .littleEndian a = 0x7f000001 ∧ rawPort .littleEndian a = port' :=
  text_roundtrip .littleEndian 0x7f000001 2564

end InetAddress

end FluentNet
