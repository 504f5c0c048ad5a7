import Mayhem.Amf.Stored

/-! The stores of `amf_invoke_to_buf` and `do_invoke`, one by one and wherever `ptr` goes: where an
encoding is returned, they are the stores of it in its order. -/
namespace Mayhem

open Amf

/-- Stores in order: where from the start of the buffer, and what. -/
abbrev Puts := List (ℤ × UInt8)

def put (p : ℤ) : List UInt8 → Puts
  | [] => []
  | b :: bs => (p, b) :: put (p + 1) bs

/-- A length that is passed for a `size_t`. -/
def sizeT (n : ℤ) : ℕ := (n % 2 ^ 64).toNat

/-- `n & 0xff`. -/
def lowByte (n : ℤ) : UInt8 := UInt8.ofNat (n % 256).toNat

section Buffer

variable (behind : CStr → Memory)

/-- The length of a string and the `memcpy`, which goes on behind the string if `slen` is larger
than it; and where `ptr` is then, by a sum that is an `int` too. -/
def strPuts (str : CStr) (p : ℤ) : Puts × ℤ :=
  let slen := intLen str
  let text := (Memory.ofList (str ++ [0]) (behind str)).bytes 0 (sizeT slen)
  (put p [lowByte (slen >>> (8 : ℕ)), lowByte slen] ++ put (p + 2) text, p + Int.bmod (2 + slen) (2 ^ 32))

mutual

/-- `amf_to_buf` at `p`, and where `ptr` is at its end. -/
def amfPuts : Amf → ℤ → Option (Puts × ℤ)
  | .number num, p => some (put p (AMF_NUMBER :: doubleToBe64 num), p + 9)
  | .bool b, p => some (put p [AMF_BOOLEAN, if b then 1 else 0], p + 2)
  | .string str, p =>
    if 0xffff < intLen (str.getD []) then none
    else
      let r := strPuts behind (str.getD []) (p + 1)
      some ((p, AMF_STRING) :: r.1, r.2)
  | .object elem, p => do
    let r ← membersPuts elem (p + 1)
    return ((p, AMF_OBJECT) :: (r.1 ++ put r.2 [0, 0, AMF_OBJECT_END]), r.2 + 3)
  | .null, p => some (put p [AMF_NULL], p + 1)
  | .undefined, p => some (put p [AMF_UNDEFINED], p + 1)
  | .strictArray _, _ => none

def membersPuts : List (CStr × Amf) → ℤ → Option (Puts × ℤ)
  | [], p => some ([], p)
  | (key, val) :: elem, p => do
    let k := strPuts behind key p
    let v ← amfPuts val k.2
    let rest ← membersPuts elem v.2
    return (k.1 ++ (v.1 ++ rest.1), rest.2)

end

def amfInvokePuts : Invoke → ℤ → Option (Puts × ℤ)
  | [], p => some ([], p)
  | none :: inv, p => do
    let rest ← amfInvokePuts inv (p + 1)
    return ((p, AMF_NULL) :: rest.1, rest.2)
  | some a :: inv, p => do
    let v ← amfPuts behind a p
    let rest ← amfInvokePuts inv v.2
    return (v.1 ++ rest.1, rest.2)

/-- `hsz`. -/
def flexSz (type : UInt8) : ℕ := if type = RTMP_MSG_FLEX_MESSAGE then 1 else 0

/-- What `do_invoke` allocates and stores into it. -/
def doInvokePuts (type : UInt8) (inv : Invoke) : Option (ℕ × Puts) := do
  let sz ← amfInvokeBufSize inv
  let r ← amfInvokePuts behind inv (flexSz type)
  return (sz + flexSz type, r.1 ++ if type = RTMP_MSG_FLEX_MESSAGE then [(0, 0)] else [])

end Buffer

/-! ### Stores in order -/

theorem put_append (p : ℤ) (a b : List UInt8) :
    put p (a ++ b) = put p a ++ put (p + a.length) b := by
  induction a generalizing p with
  | nil => simp [put]
  | cons c a ih =>
    have hp : p + 1 + a.length = p + (c :: a).length := by
      rw [List.length_cons]
      omega
    rw [List.cons_append, put, put, ih, hp, List.cons_append]

theorem put_positions (p : ℤ) (bs : List UInt8) :
    (put p bs).map Prod.fst = (List.range bs.length).map fun i : ℕ => p + i := by
  induction bs generalizing p with
  | nil => rfl
  | cons b bs ih =>
    rw [put, List.map_cons, ih, List.length_cons, List.range_succ_eq_map, List.map_cons, List.map_map]
    simp [Function.comp_def, Int.add_comm, Int.add_left_comm]

@[simp] theorem put_length (p : ℤ) (bs : List UInt8) : (put p bs).length = bs.length := by
  induction bs generalizing p with
  | nil => rfl
  | cons b bs ih => rw [put, List.length_cons, List.length_cons, ih]

theorem lowByte_natCast (n : ℕ) : lowByte n = UInt8.ofNat (n &&& 0xff) := by
  have hmod : ((n : ℤ) % 256).toNat = n % 256 := by omega
  rw [lowByte, hmod, ← Nat.and_two_pow_sub_one_eq_mod n 8]

variable {behind : CStr → Memory}

/-- What is stored of a string, if `ptr` stays in the buffer. -/
theorem strPuts_eq {str : CStr} {bs : List UInt8} (h : strToBuf str = some bs) (p : ℤ) :
    strPuts behind str p = (put p bs, p + bs.length) := by
  rw [strToBuf] at h
  split_ifs at h with hslen
  obtain rfl := Option.some.inj h
  obtain ⟨slen, hnat⟩ := Int.eq_ofNat_of_zero_le hslen.1
  obtain ⟨-, -, hle⟩ := intLen_bounds str
  rw [hnat] at hslen hle
  have htake : (str.take slen).length = slen := List.length_take_of_le (by omega)
  have hsize : sizeT (slen : ℤ) = slen := by
    rw [sizeT]
    omega
  have htext : (Memory.ofList (str ++ [0]) (behind str)).bytes 0 slen = str.take slen := by
    have hbytes := Memory.bytes_ofList_append (str.take slen) (str.drop slen ++ [0]) (behind str)
    rw [htake, ← List.append_assoc, List.take_append_drop] at hbytes
    exact hbytes
  have hshift : (slen : ℤ) >>> (8 : ℕ) = (slen >>> 8 : ℕ) := rfl
  have hend : Int.bmod (2 + slen) (2 ^ 32) = (2 + slen : ℕ) := by
    rw [Int.bmod_def]
    omega
  have hlen : (encodeStr (str.take slen)).length = 2 + slen := by
    rw [encodeStr, List.length_append, htake]
    rfl
  rw [strPuts, hnat, Int.toNat_natCast, hsize, htext, hshift, lowByte_natCast, lowByte_natCast, hend,
    hlen, encodeStr, htake, put_append]
  rfl

theorem members_puts {elem : List (CStr × Amf)} (hvals : ∀ e ∈ elem, ∀ bs p,
      amfToBuf e.2 = some bs → amfPuts behind e.2 p = some (put p bs, p + bs.length))
    {bs : List UInt8} (h : membersToBuf elem = some bs) (p : ℤ) :
    membersPuts behind elem p = some (put p bs, p + bs.length) := by
  induction elem generalizing bs p with
  | nil =>
    obtain rfl := Option.some.inj h
    simp [membersPuts, put]
  | cons e elem ih =>
    obtain ⟨key, val⟩ := e
    obtain ⟨k, hk, h⟩ := Option.bind_eq_some_iff.mp h
    obtain ⟨v, hv, h⟩ := Option.bind_eq_some_iff.mp h
    obtain ⟨rest, hrest, h⟩ := Option.bind_eq_some_iff.mp h
    obtain rfl := Option.some.inj h
    rw [membersPuts, strPuts_eq hk]
    dsimp only
    rw [hvals _ List.mem_cons_self v _ hv, Option.bind_eq_bind, Option.bind_some]
    dsimp only
    rw [ih (fun e he => hvals e (List.mem_cons_of_mem _ he)) hrest, Option.bind_some]
    simp only [put_append, List.length_append, Int.natCast_add, Int.add_assoc]
    rfl

theorem amf_puts {a : Amf} {bs : List UInt8} (h : amfToBuf a = some bs) (p : ℤ) :
    amfPuts behind a p = some (put p bs, p + bs.length) := by
  induction a using Amf.induct generalizing bs p with
  | number =>
    obtain rfl := Option.some.inj h
    rfl
  | bool =>
    obtain rfl := Option.some.inj h
    rfl
  | string str =>
    rw [amfToBuf] at h
    split_ifs at h with hlen
    obtain ⟨text, htext, h⟩ := Option.bind_eq_some_iff.mp h
    obtain rfl := Option.some.inj h
    rw [amfPuts, if_neg hlen, strPuts_eq htext, put]
    simp only [List.length_cons, Int.natCast_add]
    congr 2
    omega
  | object elem ih =>
    obtain ⟨ms, hms, hbs⟩ := Option.bind_eq_some_iff.mp h
    obtain rfl := Option.some.inj hbs
    have hput : put p (AMF_OBJECT :: (ms ++ [0, 0, AMF_OBJECT_END])) =
        (p, AMF_OBJECT) :: (put (p + 1) ms ++ put (p + 1 + ms.length) [0, 0, AMF_OBJECT_END]) := by
      rw [put, put_append]
    have hend : p + (AMF_OBJECT :: (ms ++ [0, 0, AMF_OBJECT_END])).length =
        p + 1 + ms.length + 3 := by
      simp
      omega
    rw [amfPuts, members_puts (fun e he bs p hbs => ih e he hbs p) hms, hput, hend]
    rfl
  | null =>
    obtain rfl := Option.some.inj h
    rfl
  | undefined =>
    obtain rfl := Option.some.inj h
    rfl
  | strictArray => cases h

/-- The encoding of an invoke is what is stored of it, byte by byte. -/
theorem invoke_puts {inv : Invoke} {bs : List UInt8} (h : amfInvokeToBuf inv = some bs) (p : ℤ) :
    amfInvokePuts behind inv p = some (put p bs, p + bs.length) := by
  induction inv generalizing bs p with
  | nil =>
    obtain rfl := Option.some.inj h
    simp [amfInvokePuts, put]
  | cons a inv ih =>
    cases a with
    | none =>
      obtain ⟨rest, hrest, h⟩ := Option.bind_eq_some_iff.mp h
      obtain rfl := Option.some.inj h
      have hend : p + (AMF_NULL :: rest).length = p + 1 + rest.length := by
        rw [List.length_cons]
        omega
      rw [amfInvokePuts, ih hrest, hend]
      rfl
    | some a =>
      obtain ⟨v, hv, h⟩ := Option.bind_eq_some_iff.mp h
      obtain ⟨rest, hrest, h⟩ := Option.bind_eq_some_iff.mp h
      obtain rfl := Option.some.inj h
      rw [amfInvokePuts, amf_puts hv, Option.bind_eq_bind, Option.bind_some]
      dsimp only
      rw [ih hrest, put_append, List.length_append, Int.natCast_add, ← Int.add_assoc]
      rfl

/-! ### Long keys -/

/-- The stores go forward. -/
def Rising (tr : Puts) : Prop := tr.Pairwise fun x y => x.1 < y.1

theorem Rising.append {tr tr' : Puts} (h : Rising (tr ++ tr')) :
    Rising tr ∧ Rising tr' ∧ ∀ x ∈ tr, ∀ y ∈ tr', x.1 < y.1 :=
  List.pairwise_append.mp h

/-- With a negative length the `memcpy` starts behind what is stored next, and so does the length
where the sum has wrapped around; a length that has is short. -/
theorem strPuts_rising {str : CStr} {p : ℤ} {b : UInt8} {rest : Puts}
    (h : Rising ((strPuts behind str p).1 ++ ((strPuts behind str p).2, b) :: rest)) :
    (strPuts behind str p).1.length ≤ 2 + str.length ∧
      ((strPuts behind str p).1.length = 2 + str.length → str.length < 2 ^ 31 - 2) := by
  obtain ⟨hmax, hmin, hle⟩ := intLen_bounds str
  have hlen : (strPuts behind str p).1.length = 2 + sizeT (intLen str) := by
    simp [strPuts]
  obtain ⟨-, -, hcross⟩ := h.append
  -- the length of the string is stored in front of what comes next
  have hfirst : (p, lowByte (intLen str >>> (8 : ℕ))) ∈ (strPuts behind str p).1 := by
    rw [strPuts]
    exact List.mem_append_left _ List.mem_cons_self
  have hlt : p < p + Int.bmod (2 + intLen str) (2 ^ 32) := hcross _ hfirst _ List.mem_cons_self
  have hsum : intLen str < 2 ^ 31 - 2 := by
    by_contra hbig
    rw [Int.bmod_def] at hlt
    split at hlt <;> omega
  have hpos : 0 ≤ intLen str := by
    by_contra hneg
    obtain ⟨n, hn⟩ := Nat.exists_eq_succ_of_ne_zero
      (show sizeT (intLen str) ≠ 0 by rw [sizeT]; omega)
    have htext : (p + 2, Memory.ofList (str ++ [0]) (behind str) 0) ∈ (strPuts behind str p).1 := by
      rw [strPuts, hn]
      exact List.mem_append_right _ List.mem_cons_self
    have hlt : p + 2 < p + Int.bmod (2 + intLen str) (2 ^ 32) :=
      hcross _ htext _ List.mem_cons_self
    rw [Int.bmod_def] at hlt
    split at hlt <;> omega
  have hsize : (sizeT (intLen str) : ℤ) = intLen str := by
    rw [sizeT]
    omega
  rw [hlen]
  constructor <;> omega

/-- What the stores of a value at `p` say about its keys: they begin at `p`, and if they go forward
there are no more than `n` of them, and fewer if a key is too long. -/
structure Bounded (tr : Puts) (p : ℤ) (n : ℕ) (short : Prop) : Prop where
  first : ∃ b rest, tr = (p, b) :: rest
  length_le : Rising tr → tr.length ≤ n
  short : Rising tr → tr.length = n → short

theorem bounded_put (p : ℤ) (b : UInt8) (bs : List UInt8) {n : ℕ} (hn : bs.length + 1 = n)
    {short : Prop} (hshort : short) : Bounded (put p (b :: bs)) p n short :=
  ⟨⟨b, _, rfl⟩, fun _ => by simp [hn], fun _ _ => hshort⟩

theorem members_bounded {elem : List (CStr × Amf)} (hvals : ∀ e ∈ elem, ∀ p tr q n,
      amfPuts behind e.2 p = some (tr, q) → amfSize e.2 = some n → Bounded tr p n e.2.ShortKeys)
    {p q : ℤ} {tr : Puts} {n : ℕ} (h : membersPuts behind elem p = some (tr, q))
    (hn : membersSize elem = some n) (hrise : Rising tr) :
    tr.length ≤ n ∧ (tr.length = n →
      (∀ e ∈ elem, e.1.length < 2 ^ 31 - 2) ∧ ∀ e ∈ elem, e.2.ShortKeys) := by
  induction elem generalizing p q tr n with
  | nil =>
    obtain ⟨rfl, -⟩ := Prod.mk.inj (Option.some.inj h)
    exact ⟨Nat.zero_le n, fun _ => ⟨nofun, nofun⟩⟩
  | cons e elem ih =>
    obtain ⟨key, val⟩ := e
    rw [membersPuts] at h
    obtain ⟨⟨v, r⟩, hv, h⟩ := Option.bind_eq_some_iff.mp h
    obtain ⟨⟨rest, s⟩, hrest, h⟩ := Option.bind_eq_some_iff.mp h
    obtain ⟨rfl, -⟩ := Prod.mk.inj (Option.some.inj h)
    rw [membersSize] at hn
    obtain ⟨nv, hnv, hn⟩ := Option.bind_eq_some_iff.mp hn
    obtain ⟨nr, hnr, hn⟩ := Option.bind_eq_some_iff.mp hn
    obtain rfl := Option.some.inj hn
    dsimp only at hv hrest hrise ⊢
    obtain ⟨hfirst, hle, hshort⟩ := hvals _ List.mem_cons_self _ _ _ _ hv hnv
    obtain ⟨-, hrise', -⟩ := hrise.append
    obtain ⟨hrisev, hriser, -⟩ := hrise'.append
    obtain ⟨hler, hshortr⟩ := ih (fun e he => hvals e (List.mem_cons_of_mem _ he)) hrest hnr hriser
    have hlev := hle hrisev
    obtain ⟨b, v', rfl⟩ := hfirst
    obtain ⟨hlek, hshortk⟩ := strPuts_rising (show
      Rising ((strPuts behind key p).1 ++ ((strPuts behind key p).2, b) :: (v' ++ rest)) from hrise)
    simp only [List.length_append]
    constructor
    · omega
    · intro hlen
      obtain ⟨hkeys, hvals⟩ := hshortr (by omega)
      exact ⟨List.forall_mem_cons.mpr ⟨hshortk (by omega), hkeys⟩,
        List.forall_mem_cons.mpr ⟨hshort hrisev (by omega), hvals⟩⟩

theorem amf_bounded {a : Amf} (hok : a.Sendable) {p q : ℤ} {tr : Puts} {n : ℕ}
    (h : amfPuts behind a p = some (tr, q)) (hn : amfSize a = some n) :
    Bounded tr p n a.ShortKeys := by
  induction hok generalizing p q tr n with
  | @number num =>
    obtain ⟨rfl, -⟩ := Prod.mk.inj (Option.some.inj h)
    obtain rfl := Option.some.inj hn
    exact bounded_put p AMF_NUMBER (doubleToBe64 num) rfl .number
  | @bool b =>
    obtain ⟨rfl, -⟩ := Prod.mk.inj (Option.some.inj h)
    obtain rfl := Option.some.inj hn
    exact bounded_put p AMF_BOOLEAN [if b then 1 else 0] rfl .bool
  | @string str hlen =>
    obtain ⟨bs, hbs, hsize⟩ := exists_encoding (.string hlen) .string
    obtain ⟨rfl, -⟩ := Prod.mk.inj (Option.some.inj (h.symm.trans (amf_puts hbs p)))
    obtain rfl := Option.some.inj (hn.symm.trans hsize)
    obtain rfl := Option.some.inj ((amfToBuf_string hlen).symm.trans hbs)
    exact bounded_put p AMF_STRING (encodeStr (str.getD [])) rfl .string
  | @object elem hok ih =>
    rw [amfPuts] at h
    obtain ⟨⟨ms, r⟩, hms, h⟩ := Option.bind_eq_some_iff.mp h
    obtain ⟨rfl, -⟩ := Prod.mk.inj (Option.some.inj h)
    rw [amfSize] at hn
    obtain ⟨nm, hnm, hn⟩ := Option.bind_eq_some_iff.mp hn
    obtain rfl := Option.some.inj hn
    dsimp only at hms ⊢
    have hmembers := fun hrise : Rising ms => members_bounded
      (fun e he p tr q n h hn => ih e he h hn) hms hnm hrise
    have hlen : ((p, AMF_OBJECT) :: (ms ++ put r [0, 0, AMF_OBJECT_END])).length = ms.length + 4 := by
      simp
    have hrise : Rising ((p, AMF_OBJECT) :: (ms ++ put r [0, 0, AMF_OBJECT_END])) → Rising ms :=
      fun h => (Rising.append (List.pairwise_cons.mp h).2).1
    constructor
    · exact ⟨_, _, rfl⟩
    · intro h
      obtain ⟨hle, -⟩ := hmembers (hrise h)
      omega
    · intro h hn
      obtain ⟨-, hshort⟩ := hmembers (hrise h)
      obtain ⟨hkeys, hvals⟩ := hshort (by omega)
      exact .object hkeys hvals
  | null =>
    obtain ⟨rfl, -⟩ := Prod.mk.inj (Option.some.inj h)
    obtain rfl := Option.some.inj hn
    exact bounded_put p AMF_NULL [] rfl .null
  | undefined =>
    obtain ⟨rfl, -⟩ := Prod.mk.inj (Option.some.inj h)
    obtain rfl := Option.some.inj hn
    exact bounded_put p AMF_UNDEFINED [] rfl .undefined

theorem invoke_bounded {inv : Invoke} (hok : ∀ a, some a ∈ inv → a.Sendable) {p q : ℤ} {tr : Puts}
    {n : ℕ} (h : amfInvokePuts behind inv p = some (tr, q)) (hn : amfInvokeBufSize inv = some n)
    (hrise : Rising tr) :
    tr.length ≤ n ∧ (tr.length = n → ∀ a, some a ∈ inv → a.ShortKeys) := by
  induction inv generalizing p q tr n with
  | nil =>
    obtain ⟨rfl, -⟩ := Prod.mk.inj (Option.some.inj h)
    exact ⟨Nat.zero_le n, fun _ => nofun⟩
  | cons a inv ih =>
    have hok' : ∀ a, some a ∈ inv → a.Sendable := fun a ha => hok a (List.mem_cons_of_mem _ ha)
    cases a with
    | none =>
      rw [amfInvokePuts] at h
      obtain ⟨⟨rest, r⟩, hrest, h⟩ := Option.bind_eq_some_iff.mp h
      obtain ⟨rfl, -⟩ := Prod.mk.inj (Option.some.inj h)
      rw [amfInvokeBufSize] at hn
      obtain ⟨nr, hnr, hn⟩ := Option.bind_eq_some_iff.mp hn
      obtain rfl := Option.some.inj hn
      dsimp only at hrest hrise ⊢
      obtain ⟨hle, hshort⟩ := ih hok' hrest hnr (List.pairwise_cons.mp hrise).2
      rw [List.length_cons]
      constructor
      · omega
      · intro hlen b hb
        rcases List.mem_cons.mp hb with hb | hb
        · cases hb
        · exact hshort (by omega) b hb
    | some a =>
      rw [amfInvokePuts] at h
      obtain ⟨⟨v, r⟩, hv, h⟩ := Option.bind_eq_some_iff.mp h
      obtain ⟨⟨rest, s⟩, hrest, h⟩ := Option.bind_eq_some_iff.mp h
      obtain ⟨rfl, -⟩ := Prod.mk.inj (Option.some.inj h)
      rw [amfInvokeBufSize] at hn
      obtain ⟨nv, hnv, hn⟩ := Option.bind_eq_some_iff.mp hn
      obtain ⟨nr, hnr, hn⟩ := Option.bind_eq_some_iff.mp hn
      obtain rfl := Option.some.inj hn
      dsimp only at hv hrest hrise ⊢
      obtain ⟨hrisev, hriser, -⟩ := hrise.append
      obtain ⟨-, hlev, hshortv⟩ := amf_bounded (hok a List.mem_cons_self) hv hnv
      obtain ⟨hler, hshortr⟩ := ih hok' hrest hnr hriser
      have hlev := hlev hrisev
      simp only [List.length_append]
      constructor
      · omega
      · intro hlen b hb
        rcases List.mem_cons.mp hb with hb | hb
        · obtain rfl := Option.some.inj hb
          exact hshortv hrisev (by omega)
        · exact hshortr (by omega) b hb

/-! ### Buffers -/

/-- The positions of a buffer of `n` bytes. -/
def positions (n : ℕ) : List ℤ := (List.range n).map fun i : ℕ => (i : ℤ)

/-- `amf_invoke_to_buf` fills the buffer from its start to its end, and `do_invoke` stores once
to each byte that it has allocated. -/
def Invoke.Fills (behind : CStr → Memory) (inv : Invoke) : Prop :=
  ∃ sz, amfInvokeBufSize inv = some sz ∧
    (∃ r, amfInvokePuts behind inv 0 = some r ∧ r.1.map Prod.fst = positions sz) ∧
    ∀ type, ∃ tr, doInvokePuts behind type inv = some (sz + flexSz type, tr) ∧
      (tr.map Prod.fst).Perm (positions (sz + flexSz type))

theorem put_zero (bs : List UInt8) : (put 0 bs).map Prod.fst = positions bs.length := by
  rw [put_positions, positions]
  simp only [Int.zero_add]

/-- The bytes of the encoding behind the byte for the flex message. -/
theorem doInvoke_puts {inv : Invoke} {bs : List UInt8} (hsize : amfInvokeBufSize inv = some bs.length)
    (hbs : amfInvokeToBuf inv = some bs) (type : UInt8) :
    ∃ tr, doInvokePuts behind type inv = some (bs.length + flexSz type, tr) ∧
      (tr.map Prod.fst).Perm (positions (bs.length + flexSz type)) := by
  rw [doInvokePuts, hsize, invoke_puts hbs]
  by_cases hflex : type = RTMP_MSG_FLEX_MESSAGE
  · have hsz : flexSz type = 1 := if_pos hflex
    refine ⟨put 1 bs ++ [(0, 0)], by rw [hsz, if_pos hflex]; rfl, ?_⟩
    have hall : (put 0 (0 :: bs)).map Prod.fst = positions (bs.length + 1) := put_zero (0 :: bs)
    rw [hsz, ← hall, put, List.map_append]
    exact List.perm_append_comm
  · have hsz : flexSz type = 0 := if_neg hflex
    refine ⟨put 0 bs ++ [], by rw [hsz, if_neg hflex]; rfl, ?_⟩
    rw [hsz, List.append_nil, put_zero, Nat.add_zero]

theorem Invoke.Fills.short {inv : Invoke} (hok : ∀ a, some a ∈ inv → a.Sendable)
    (h : inv.Fills behind) : ∀ a, some a ∈ inv → a.ShortKeys := by
  obtain ⟨sz, hsz, ⟨⟨tr, q⟩, hputs, hpos⟩, -⟩ := h
  have hrise : Rising tr := by
    apply List.pairwise_map.mp
    rw [hpos, positions, List.pairwise_map]
    exact List.pairwise_lt_range.imp fun h => Int.ofNat_lt.mpr h
  have hlen := congrArg List.length hpos
  rw [List.length_map, positions, List.length_map, List.length_range] at hlen
  exact (invoke_bounded hok hputs hsz hrise).2 hlen

/-- The buffer of an invoke is filled exactly if an `int` holds the lengths of all keys in it. -/
theorem invoke_fills (behind : CStr → Memory) (inv : Invoke)
    (hok : ∀ a, some a ∈ inv → a.Sendable) :
    inv.Fills behind ↔ ∀ a, some a ∈ inv → a.ShortKeys := by
  constructor
  · exact fun h => h.short hok
  · intro hshort
    obtain ⟨bs, hbs, hsize⟩ := exists_invoke hok hshort
    exact ⟨bs.length, hsize, ⟨_, invoke_puts hbs 0, put_zero bs⟩, doInvoke_puts hsize hbs⟩

theorem invoke_fills_object : Invoke.Fills (fun _ _ => 0)
    [none, some (.object [([], .null), ([0x61], .string (some [0x62]))])] := by
  apply (invoke_fills _ _ ?_).mpr
  · simp only [List.mem_cons, reduceCtorEq, false_or, Option.some.injEq, List.not_mem_nil, or_false,
      forall_eq]
    apply ShortKeys.object
    · decide
    · simp only [List.forall_mem_cons]
      exact ⟨.null, .string, nofun⟩
  · simp only [List.mem_cons, reduceCtorEq, false_or, Option.some.injEq, List.not_mem_nil, or_false,
      forall_eq]
    apply Sendable.object
    simp only [List.forall_mem_cons]
    exact ⟨.null, .string (by decide), nofun⟩

theorem long_overrun {key : CStr} (h : 2 ^ 31 - 2 ≤ key.length) :
    ¬ Invoke.Fills behind [some (.object [(key, .null)])] := by
  intro hfills
  have hok : ∀ a, some a ∈ [some (Amf.object [(key, .null)])] → a.Sendable := by
    intro a ha
    obtain rfl := Option.some.inj (List.mem_singleton.mp ha)
    apply Sendable.object
    simp only [List.forall_mem_cons]
    exact ⟨.null, nofun⟩
  cases hfills.short hok _ List.mem_cons_self with
  | object hkeys _ => exact absurd (hkeys _ List.mem_cons_self) (Nat.not_lt.mpr h)

/-- A key of 2^31 letters a: the length is -2^31, and the `memcpy` of 2^64 - 2^31 bytes leaves the
buffer. -/
theorem key_overrun :
    ¬ Invoke.Fills (fun _ _ => 0) [some (.object [(List.replicate (2 ^ 31) 0x61, .null)])] :=
  long_overrun (by rw [List.length_replicate]; decide)

end Mayhem
