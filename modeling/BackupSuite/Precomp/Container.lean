import Mathlib.Tactic.Ring
import BackupSuite.CtrlCenter.ParseBuffer

/-! # The container of precomp

A PCF file has the input cut into pieces: bytes that are copied, and deflate streams that are
stored decompressed, with the data from which preflate makes the stream again. What was
decompressed may have been cut into pieces itself. Whatever the pieces are that
`compress_file` has found, `decompress_file` gives back the input (`decompress_container`).

preflate is the parameter `reencode`; the methods that compress the container itself,
and the streams other than deflate, are left out.
-/

namespace BackupSuite.Precomp

open BackupSuite.CtrlCenter

/-! ## Numbers -/

def fput_vlint (v : Nat) : Bytes :=
  if 128 ≤ v then UInt8.ofNat ((v &&& 127) + 128) :: fput_vlint ((v >>> 7) - 1) else [UInt8.ofNat v]
termination_by v
decreasing_by
  rw [Nat.shiftRight_eq_div_pow]
  omega

/-- The loop of `fin_fget_vlint`; there is nothing to read behind the end of the file. -/
def fgetLoop (v o s : Nat) : Bytes → Option (Nat × Bytes)
  | [] => none
  | c :: fin =>
    if 128 ≤ c.toNat then fgetLoop (v + (c.toNat &&& 127) <<< s) ((o + 1) <<< 7) (s + 7) fin
    else some (v + o + c.toNat <<< s, fin)

def fget_vlint (fin : Bytes) : Option (Nat × Bytes) := fgetLoop 0 0 0 fin

theorem toNat_ofNat_of_lt {n : Nat} (small : n < 256) : (UInt8.ofNat n).toNat = n := by
  rw [UInt8.toNat_ofNat']
  exact Nat.mod_eq_of_lt small

/-- The induction is on the number; `o` makes up for the 1 that each further byte takes off. -/
theorem fgetLoop_fput (n v o s : Nat) (taken : 127 * o + 128 = 2 ^ (s + 7)) (fin : Bytes) :
    fgetLoop v o s (fput_vlint n ++ fin) = some (v + o + n * 2 ^ s, fin) := by
  induction n using Nat.strong_induction_on generalizing v o s with
  | _ n ih =>
    have low : n &&& 127 = n % 128 := Nat.and_two_pow_sub_one_eq_mod n 7
    rw [fput_vlint]
    split
    next more =>
      have byte : (UInt8.ofNat ((n &&& 127) + 128)).toNat = n % 128 + 128 := by
        rw [low]
        exact toNat_ofNat_of_lt (by omega)
      have low' : (n % 128 + 128) &&& 127 = n % 128 := by
        have remainder := Nat.and_two_pow_sub_one_eq_mod (n % 128 + 128) 7
        exact remainder.trans (by omega)
      have high : n >>> 7 = n / 128 := Nat.shiftRight_eq_div_pow n 7
      rw [List.cons_append, fgetLoop, byte, if_pos (Nat.le_add_left _ _), low', high]
      rw [ih (n / 128 - 1) (by omega) _ _ _ ?_]
      · have split := Nat.div_add_mod n 128
        have positive : 1 ≤ n / 128 := by omega
        obtain ⟨m, quotient⟩ := Nat.exists_eq_add_of_le positive
        have whole : n * 2 ^ s = 128 * 2 ^ s + 128 * (m * 2 ^ s) + n % 128 * 2 ^ s := by
          calc n * 2 ^ s = (128 * (1 + m) + n % 128) * 2 ^ s := by rw [← quotient, split]
            _ = _ := by ring
        have next : 2 ^ (s + 7) = 128 * 2 ^ s := by ring
        have digits : m * 2 ^ (s + 7) = 128 * (m * 2 ^ s) := by ring
        rw [quotient, Nat.add_sub_cancel_left, Nat.shiftLeft_eq, Nat.shiftLeft_eq, whole, digits]
        rw [next] at taken
        congr 2
        omega
      · rw [Nat.shiftLeft_eq, Nat.pow_add, ← taken]
        ring
    next less =>
      have byte : (UInt8.ofNat n).toNat = n := toNat_ofNat_of_lt (by omega)
      rw [List.singleton_append, fgetLoop, byte, if_neg less, Nat.shiftLeft_eq]

theorem fget_fput_vlint (n : Nat) (fin : Bytes) : fget_vlint (fput_vlint n ++ fin) = some (n, fin) := by
  rw [fget_vlint, fgetLoop_fput n 0 0 0 rfl, Nat.pow_zero, Nat.mul_one, Nat.zero_add]

/-- `own_fread` of so many bytes, all of which have to be there. -/
def freadAll (n : Nat) (fin : Bytes) : Option (Bytes × Bytes) :=
  if n ≤ fin.length then some (fin.take n, fin.drop n) else none

theorem freadAll_append (data fin : Bytes) : freadAll data.length (data ++ fin) = some (data, fin) := by
  have enough : data.length ≤ (data ++ fin).length := by
    rw [List.length_append]
    exact Nat.le_add_right _ _
  rw [freadAll, if_pos enough, List.take_left, List.drop_left]

/-! ## Deflate streams -/

inductive StreamType where
  | zip
  | gzip
  | png
  | swf
  | brute
  | raw
deriving DecidableEq, Repr

namespace StreamType

/-- `D_ZIP` and so on -/
def code : StreamType → UInt8
  | zip => 1
  | gzip => 2
  | png => 3
  | swf => 7
  | brute => 254
  | raw => 255

def ofCode (code : UInt8) : Option StreamType :=
  if code = 1 then some zip
  else if code = 2 then some gzip
  else if code = 3 then some png
  else if code = 7 then some swf
  else if code = 254 then some brute
  else if code = 255 then some raw
  else none

/-- The bytes in front of the header, which the type stands for. -/
def lead : StreamType → Bytes
  | zip => [80, 75, 3, 4]
  | gzip => [31, 139]
  | png => text "IDAT"
  | swf => text "CWS"
  | brute | raw => []

/-- The last byte of the header is stored plus 1. -/
def incLast : StreamType → Bool
  | png | swf | raw => true
  | zip | gzip | brute => false

theorem ofCode_code (type : StreamType) : ofCode type.code = some type := by
  cases type <;> rfl

end StreamType

/-- `recompress_deflate_result`, as far as it is stored; `zlib_perfect` is always false when a stream was found. -/
structure DeflateResult where
  zlib_perfect : Bool
  recon_data : Bytes
  compressed_stream_size : Nat
  uncompressed_stream_size : Nat
deriving DecidableEq, Repr

def storedHeader (inc_last_hdr_byte : Bool) (hdr : Bytes) : Bytes :=
  if inc_last_hdr_byte then hdr.dropLast ++ [hdr.getLastD 0 + 1] else hdr

/-- `fout_fput_deflate_hdr` for streams that were found, and the flags with the bit for the reconstruction data. -/
def fput_deflate_hdr (type : StreamType) (flags : UInt8) (hdr : Bytes) : Bytes :=
  (1 + 2 + flags) :: type.code :: (fput_vlint hdr.length ++ storedHeader type.incLast hdr)

def fput_recon_data (rdres : DeflateResult) : Bytes :=
  fput_vlint rdres.recon_data.length ++ rdres.recon_data ++ fput_vlint rdres.compressed_stream_size ++
    fput_vlint rdres.uncompressed_stream_size

def restoredHeader (inc_last_hdr_byte : Bool) (hdr : Bytes) : Bytes :=
  if inc_last_hdr_byte then hdr.dropLast ++ [hdr.getLastD 0 - 1] else hdr

/-- `fin_fget_deflate_hdr`, behind the type; the parameters of zLib are one byte. -/
def fget_deflate_hdr (flags : UInt8) (inc_last_hdr_byte : Bool) (fin : Bytes) : Option (Bytes × Bytes) :=
  (if flags &&& 2 = 0 then fin.tail? else some fin).bind fun fin =>
    (fget_vlint fin).bind fun (hdr_length, fin) =>
      -- without a last byte, `hdr_length - 1` is no length
      if inc_last_hdr_byte ∧ hdr_length = 0 then none
      else (freadAll hdr_length fin).map fun (hdr, fin) => (restoredHeader inc_last_hdr_byte hdr, fin)

def fget_recon_data (flags : UInt8) (fin : Bytes) : Option (DeflateResult × Bytes) :=
  (if flags &&& 2 = 0 then some ([], fin) else (fget_vlint fin).bind fun (sz, fin) => freadAll sz fin).bind
    fun (recon_data, fin) =>
      (fget_vlint fin).bind fun (compressed_stream_size, fin) =>
        (fget_vlint fin).map fun (uncompressed_stream_size, fin) =>
          (⟨flags &&& 2 = 0, recon_data, compressed_stream_size, uncompressed_stream_size⟩, fin)

theorem length_storedHeader {inc : Bool} {hdr : Bytes} (filled : inc = true → hdr ≠ []) :
    (storedHeader inc hdr).length = hdr.length := by
  rw [storedHeader]
  split
  next inc =>
    have positive := List.length_pos_iff.mpr (filled inc)
    rw [List.length_append, List.length_dropLast, List.length_singleton]
    omega
  next => rfl

theorem restoredHeader_storedHeader {inc : Bool} {hdr : Bytes} (filled : inc = true → hdr ≠ []) :
    restoredHeader inc (storedHeader inc hdr) = hdr := by
  cases inc with
  | false => rfl
  | true =>
    obtain ⟨front, last, rfl⟩ := List.eq_nil_or_concat hdr |>.resolve_left (filled rfl)
    rw [restoredHeader, storedHeader, if_pos rfl, if_pos rfl, List.concat_eq_append, List.dropLast_concat,
      List.getLastD_concat, List.dropLast_concat, List.getLastD_concat, UInt8.add_sub_cancel]

theorem fget_deflate_hdr_append {type : StreamType} {flags : UInt8} {hdr : Bytes} (bit : flags &&& 2 ≠ 0)
    (filled : type.incLast = true → hdr ≠ []) (fin : Bytes) :
    fget_deflate_hdr flags type.incLast (fput_vlint hdr.length ++ (storedHeader type.incLast hdr ++ fin)) =
      some (hdr, fin) := by
  have length : ¬ (type.incLast = true ∧ hdr.length = 0) := fun ⟨inc, empty⟩ =>
    filled inc (List.length_eq_zero_iff.mp empty)
  have read := freadAll_append (storedHeader type.incLast hdr) fin
  rw [length_storedHeader filled] at read
  simp only [fget_deflate_hdr, if_neg bit, Option.bind_some, fget_fput_vlint, if_neg length, read, Option.map_some,
    restoredHeader_storedHeader filled]

theorem fget_recon_data_append {flags : UInt8} (bit : flags &&& 2 ≠ 0) (rdres : DeflateResult)
    (found : rdres.zlib_perfect = false) (fin : Bytes) :
    fget_recon_data flags (fput_recon_data rdres ++ fin) = some (rdres, fin) := by
  cases rdres with
  | mk zlib_perfect recon_data compressed_stream_size uncompressed_stream_size =>
    cases found
    simp only [fget_recon_data, fput_recon_data, if_neg bit, List.append_assoc, fget_fput_vlint, Option.bind_some,
      freadAll_append, decide_eq_false bit, Option.map_some]

/-! ## Pieces of the input -/

/-- What `compress_file` makes of a file: bytes to copy, streams with what they decompress to, and
streams that decompress to what has been cut into pieces again. -/
inductive Pieces where
  | nil
  | plain (data : Bytes) (next : Pieces)
  | stream (type : StreamType) (hdr recon_data data : Bytes) (next : Pieces)
  | nested (type : StreamType) (hdr recon_data : Bytes) (inner next : Pieces)

/-- `preflate_reencode`: the stream that has the data in it, from the reconstruction data. -/
abbrev Reencode := (recon_data data : Bytes) → Option Bytes

variable (reencode : Reencode)

/-- A stream in the input, in front of the rest. -/
def streamBytes (type : StreamType) (hdr recon_data data : Bytes) : Bytes :=
  type.lead ++ hdr ++ (reencode recon_data data).getD []

def foundResult (recon_data data : Bytes) : DeflateResult :=
  ⟨false, recon_data, ((reencode recon_data data).getD []).length, data.length⟩

namespace Pieces

/-- The input that was cut into these pieces. -/
def original : Pieces → Bytes
  | nil => []
  | plain data next => data ++ next.original
  | stream type hdr recon_data data next => streamBytes reencode type hdr recon_data data ++ next.original
  | nested type hdr recon_data inner next =>
    streamBytes reencode type hdr recon_data inner.original ++ next.original

/-- What `compress_file` writes of them. -/
def written : Pieces → Bytes
  | nil => []
  | plain data next => 0 :: (fput_vlint data.length ++ (data ++ next.written))
  | stream type hdr recon_data data next =>
    fput_deflate_hdr type 0 hdr ++ (fput_recon_data (foundResult reencode recon_data data) ++ (data ++ next.written))
  | nested type hdr recon_data inner next =>
    fput_deflate_hdr type 128 hdr ++ (fput_recon_data (foundResult reencode recon_data (inner.original reencode)) ++
      (fput_vlint inner.written.length ++ (inner.written ++ next.written)))

/-- Bytes to copy are there, preflate has accepted the streams, and a PNG is not looked into. -/
def Accepted : Pieces → Prop
  | nil => True
  | plain data next => data ≠ [] ∧ next.Accepted
  | stream type hdr recon_data data next =>
    (type.incLast = true → hdr ≠ []) ∧ (reencode recon_data data).isSome ∧ next.Accepted
  | nested type hdr recon_data inner next =>
    type ≠ .png ∧ (type.incLast = true → hdr ≠ []) ∧ (reencode recon_data (inner.original reencode)).isSome ∧
      inner.Accepted ∧ next.Accepted

end Pieces

/-- `decompress_file`, of what is left of the file; `none` where it ends with an error. Every round takes
bytes off, so the length is enough fuel. -/
def decompressLoop : Nat → Bytes → Option Bytes
  | _, [] => some []
  | 0, _ :: _ => none
  | fuel + 1, header1 :: fin =>
    if header1 = 0 then
      (fget_vlint fin).bind fun (uncompressed_data_length, fin) =>
        -- the end of a file that is compressed on the fly
        if uncompressed_data_length = 0 then some []
        else
          (freadAll uncompressed_data_length fin).bind fun (data, fin) =>
            (decompressLoop fuel fin).map (data ++ ·)
    else
      match fin with
      | [] => none
      | headertype :: fin =>
        (StreamType.ofCode headertype).bind fun type =>
          (fget_deflate_hdr header1 type.incLast fin).bind fun (hdr, fin) =>
            (fget_recon_data header1 fin).bind fun (rdres, fin) =>
              (if type ≠ .png ∧ header1 &&& 128 ≠ 0 then
                (fget_vlint fin).bind fun (recursion_length, fin) =>
                  (freadAll recursion_length fin).bind fun (inner, fin) =>
                    (decompressLoop fuel inner).bind fun outer =>
                      (freadAll rdres.uncompressed_stream_size outer).map fun (data, _) => (data, fin)
              else freadAll rdres.uncompressed_stream_size fin).bind fun (data, fin) =>
                (reencode rdres.recon_data data).bind fun stream =>
                  (decompressLoop fuel fin).map (type.lead ++ hdr ++ stream ++ ·)

def decompress_file (fin : Bytes) : Option Bytes := decompressLoop reencode fin.length fin

/-! ## Fuel -/

variable {reencode}

theorem fgetLoop_le {v o s n : Nat} {fin rest : Bytes} (read : fgetLoop v o s fin = some (n, rest)) :
    rest.length ≤ fin.length := by
  induction fin generalizing v o s with
  | nil => cases read
  | cons c fin ih =>
    rw [List.length_cons]
    rw [fgetLoop] at read
    split at read
    next => exact Nat.le_succ_of_le (ih read)
    next =>
      cases read
      exact Nat.le_succ _

theorem fget_vlint_le {n : Nat} {fin rest : Bytes} (read : fget_vlint fin = some (n, rest)) :
    rest.length ≤ fin.length := fgetLoop_le read

theorem freadAll_le {n : Nat} {fin data rest : Bytes} (read : freadAll n fin = some (data, rest)) :
    data.length ≤ fin.length ∧ rest.length ≤ fin.length := by
  rw [freadAll] at read
  split at read
  next =>
    cases read
    exact ⟨List.length_take_le' _ _, by rw [List.length_drop]; exact Nat.sub_le _ _⟩
  next => cases read

theorem fget_deflate_hdr_le {flags : UInt8} {inc : Bool} {fin hdr rest : Bytes}
    (read : fget_deflate_hdr flags inc fin = some (hdr, rest)) : rest.length ≤ fin.length := by
  rw [fget_deflate_hdr] at read
  obtain ⟨behind, parameters, read⟩ := Option.bind_eq_some_iff.mp read
  obtain ⟨⟨n, behind'⟩, number, read⟩ := Option.bind_eq_some_iff.mp read
  dsimp only at read
  split at read
  next => cases read
  next =>
    obtain ⟨⟨stored, last⟩, bytes, pair⟩ := Option.map_eq_some_iff.mp read
    cases pair
    have first : behind.length ≤ fin.length := by
      split at parameters
      next =>
        cases fin with
        | nil => cases parameters
        | cons c fin =>
          cases parameters
          exact Nat.le_succ _
      next =>
        cases parameters
        exact Nat.le_refl _
    exact (freadAll_le bytes).2.trans ((fget_vlint_le number).trans first)

theorem fget_recon_data_le {flags : UInt8} {fin rest : Bytes} {rdres : DeflateResult}
    (read : fget_recon_data flags fin = some (rdres, rest)) : rest.length ≤ fin.length := by
  rw [fget_recon_data] at read
  obtain ⟨⟨recon_data, behind⟩, recon, read⟩ := Option.bind_eq_some_iff.mp read
  obtain ⟨⟨compressed, behind'⟩, first, read⟩ := Option.bind_eq_some_iff.mp read
  obtain ⟨⟨uncompressed, last⟩, second, pair⟩ := Option.map_eq_some_iff.mp read
  cases pair
  have data : behind.length ≤ fin.length := by
    split at recon
    next =>
      cases recon
      exact Nat.le_refl _
    next =>
      obtain ⟨⟨sz, behind''⟩, number, bytes⟩ := Option.bind_eq_some_iff.mp recon
      exact (freadAll_le bytes).2.trans (fget_vlint_le number)
  exact (fget_vlint_le second).trans ((fget_vlint_le first).trans data)

/-- The loop never ends for want of fuel: with the length of the file or more it comes to the same. -/
theorem decompressLoop_fuel {fuel fuel' : Nat} {fin : Bytes} (enough : fin.length ≤ fuel)
    (enough' : fin.length ≤ fuel') : decompressLoop reencode fuel fin = decompressLoop reencode fuel' fin := by
  induction fuel generalizing fuel' fin with
  | zero =>
    obtain rfl := List.length_eq_zero_iff.mp (Nat.le_zero.mp enough)
    cases fuel' <;> rfl
  | succ fuel ih =>
    cases fin with
    | nil => cases fuel' <;> rfl
    | cons header1 fin =>
      obtain ⟨fuel', rfl⟩ := Nat.exists_eq_succ_of_ne_zero (n := fuel') (Nat.ne_zero_of_lt enough')
      have short : fin.length ≤ fuel := Nat.le_of_succ_le_succ enough
      have short' : fin.length ≤ fuel' := Nat.le_of_succ_le_succ enough'
      have same {rest : Bytes} (less : rest.length ≤ fin.length) :
          decompressLoop reencode fuel rest = decompressLoop reencode fuel' rest :=
        ih (less.trans short) (less.trans short')
      simp only [decompressLoop]
      split
      next =>
        refine Option.bind_congr fun ⟨n, rest⟩ number => ?_
        have less := fget_vlint_le number
        dsimp only
        split
        next => rfl
        next =>
          refine Option.bind_congr fun ⟨data, rest⟩ bytes => ?_
          rw [same ((freadAll_le bytes).2.trans less)]
      next =>
        cases fin with
        | nil => rfl
        | cons headertype fin =>
          refine Option.bind_congr fun type _ => ?_
          refine Option.bind_congr fun ⟨hdr, behindHdr⟩ header => ?_
          refine Option.bind_congr fun ⟨rdres, behindRecon⟩ recon => ?_
          have less : behindRecon.length ≤ (headertype :: fin).length :=
            (fget_recon_data_le recon).trans ((fget_deflate_hdr_le header).trans (Nat.le_succ _))
          dsimp only
          split
          next =>
            rw [Option.bind_assoc, Option.bind_assoc]
            refine Option.bind_congr fun ⟨n, behindLength⟩ number => ?_
            have lessLength := (fget_vlint_le number).trans less
            rw [Option.bind_assoc, Option.bind_assoc]
            refine Option.bind_congr fun ⟨inner, behindInner⟩ bytes => ?_
            obtain ⟨lessInner, lessRest⟩ := freadAll_le bytes
            dsimp only
            rw [same (lessInner.trans lessLength)]
            refine Option.bind_congr fun ⟨data, rest⟩ below => ?_
            obtain ⟨outer, restored, below⟩ := Option.bind_eq_some_iff.mp below
            obtain ⟨part, read, pair⟩ := Option.map_eq_some_iff.mp below
            cases pair
            rw [same (lessRest.trans lessLength)]
          next =>
            refine Option.bind_congr fun ⟨data, rest⟩ bytes => ?_
            dsimp only
            rw [same ((freadAll_le bytes).2.trans less)]

/-- What the rounds of a longer file make of the rest of it. -/
theorem decompressLoop_of_le {fuel : Nat} {fin : Bytes} (enough : fin.length ≤ fuel) :
    decompressLoop reencode fuel fin = decompress_file reencode fin :=
  decompressLoop_fuel enough (Nat.le_refl _)

/-! ## The round trip -/

theorem freadAll_self (data : Bytes) : freadAll data.length data = some (data, []) := by
  have read := freadAll_append data []
  rwa [List.append_nil] at read

theorem fget_recon_data_found {flags : UInt8} (bit : flags &&& 2 ≠ 0) (recon_data data fin : Bytes) :
    fget_recon_data flags (fput_recon_data (foundResult reencode recon_data data) ++ fin) =
      some (foundResult reencode recon_data data, fin) :=
  fget_recon_data_append bit _ rfl fin

/-- The induction is on the pieces; what they are written as is read up to its end. -/
theorem decompress_file_written {p : Pieces} (accepted : p.Accepted reencode) :
    decompress_file reencode (p.written reencode) = some (p.original reencode) := by
  induction p with
  | nil => rfl
  | plain data next ih =>
    obtain ⟨filled, accepted⟩ := accepted
    obtain ⟨fuel, enough⟩ : ∃ fuel, ((Pieces.plain data next).written reencode).length = fuel + 1 := ⟨_, rfl⟩
    rw [decompress_file, enough]
    rw [Pieces.written, List.length_cons, List.length_append, List.length_append] at enough
    have length : data.length ≠ 0 := fun zero => filled (List.length_eq_zero_iff.mp zero)
    have rest : decompressLoop reencode fuel (next.written reencode) = some (next.original reencode) :=
      (decompressLoop_of_le (by omega)).trans (ih accepted)
    simp only [Pieces.written, decompressLoop, if_pos, fget_fput_vlint, Option.bind_some, if_neg length,
      freadAll_append, rest, Option.map_some, Pieces.original]
  | stream type hdr recon_data data next ih =>
    obtain ⟨header, found, accepted⟩ := accepted
    obtain ⟨stream, made⟩ := Option.isSome_iff_exists.mp found
    obtain ⟨fuel, enough⟩ :
        ∃ fuel, ((Pieces.stream type hdr recon_data data next).written reencode).length = fuel + 1 := ⟨_, rfl⟩
    rw [decompress_file, enough]
    rw [Pieces.written, fput_deflate_hdr, List.cons_append, List.length_cons, List.length_append, List.length_append,
      List.length_append] at enough
    have rest : decompressLoop reencode fuel (next.written reencode) = some (next.original reencode) :=
      (decompressLoop_of_le (by omega)).trans (ih accepted)
    have marked : (1 + 2 + 0 : UInt8) ≠ 0 := by decide
    have bit : (1 + 2 + 0 : UInt8) &&& 2 ≠ 0 := by decide
    have flat : ¬ (type ≠ .png ∧ (1 + 2 + 0 : UInt8) &&& 128 ≠ 0) := fun both => both.2 (by decide)
    simp only [Pieces.written, fput_deflate_hdr, List.cons_append, List.append_assoc, decompressLoop, if_neg marked,
      StreamType.ofCode_code, Option.bind_some, fget_deflate_hdr_append bit header, fget_recon_data_found bit,
      if_neg flat]
    simp only [foundResult, freadAll_append, Option.bind_some, made, rest, Option.map_some, Pieces.original,
      streamBytes, Option.getD_some, List.append_assoc]
  | nested type hdr recon_data inner next ihInner ih =>
    obtain ⟨notPng, header, found, acceptedInner, accepted⟩ := accepted
    obtain ⟨stream, made⟩ := Option.isSome_iff_exists.mp found
    obtain ⟨fuel, enough⟩ :
        ∃ fuel, ((Pieces.nested type hdr recon_data inner next).written reencode).length = fuel + 1 := ⟨_, rfl⟩
    rw [decompress_file, enough]
    rw [Pieces.written, fput_deflate_hdr, List.cons_append, List.length_cons, List.length_append, List.length_append,
      List.length_append, List.length_append] at enough
    have rest : decompressLoop reencode fuel (next.written reencode) = some (next.original reencode) :=
      (decompressLoop_of_le (by omega)).trans (ih accepted)
    have below : decompressLoop reencode fuel (inner.written reencode) = some (inner.original reencode) :=
      (decompressLoop_of_le (by omega)).trans (ihInner acceptedInner)
    have marked : (1 + 2 + 128 : UInt8) ≠ 0 := by decide
    have bit : (1 + 2 + 128 : UInt8) &&& 2 ≠ 0 := by decide
    have deep : type ≠ .png ∧ (1 + 2 + 128 : UInt8) &&& 128 ≠ 0 := ⟨notPng, by decide⟩
    simp only [Pieces.written, fput_deflate_hdr, List.cons_append, List.append_assoc, decompressLoop, if_neg marked,
      StreamType.ofCode_code, Option.bind_some, fget_deflate_hdr_append bit header, fget_recon_data_found bit,
      if_pos deep]
    simp only [foundResult, fget_fput_vlint, freadAll_append, freadAll_self, below, Option.bind_some, made, rest,
      Option.map_some, Pieces.original, streamBytes, Option.getD_some, List.append_assoc]

/-! ## The file -/

/-- `V_MAJOR`, `V_MINOR` and `V_MINOR2` -/
def version : Bytes := [0, 4, 8]

/-- `write_header`, for `-cn`. -/
def write_header (input_file_name_without_path : Bytes) : Bytes :=
  text "PCF" ++ (version ++ (0 :: (input_file_name_without_path ++ [0])))

/-- The method of compression, the name and what comes behind it. -/
def read_header (fin : Bytes) : Option (UInt8 × Bytes × Bytes) :=
  if fin.take 3 = text "PCF" ∧ (fin.drop 3).take 3 = version then
    match fin.drop 6 with
    | [] => none
    | compression_otf_method :: fin =>
      match fin.dropWhile (· ≠ 0) with
      | [] => none
      | _ :: rest => some (compression_otf_method, fin.takeWhile (· ≠ 0), rest)
  else none

variable (reencode)

def compress (name : Bytes) (p : Pieces) : Bytes := write_header name ++ p.written reencode

/-- The name and the contents of the output, of a container that is not compressed itself. -/
def decompress (fin : Bytes) : Option (Bytes × Bytes) :=
  (read_header fin).bind fun (compression_otf_method, name, fin) =>
    if compression_otf_method = 0 then (decompress_file reencode fin).map (name, ·) else none

variable {reencode}

theorem read_header_write_header {name : Bytes} (noNul : 0 ∉ name) (fin : Bytes) :
    read_header (write_header name ++ fin) = some (0, name, fin) := by
  have differs : ∀ c ∈ name, decide (c ≠ 0) = true := fun c mem => decide_eq_true fun zero => noNul (zero ▸ mem)
  have drop : (name ++ 0 :: fin).dropWhile (· ≠ 0) = 0 :: fin := by
    rw [List.dropWhile_append_of_pos differs]
    rfl
  have take : (name ++ 0 :: fin).takeWhile (· ≠ 0) = name := by
    rw [List.takeWhile_append_of_pos differs]
    exact List.append_nil name
  have bytes : write_header name ++ fin = text "PCF" ++ (version ++ (0 :: (name ++ 0 :: fin))) := by
    simp only [write_header, List.append_assoc, List.cons_append, List.nil_append]
  rw [bytes, read_header, if_pos ⟨rfl, rfl⟩]
  have behind : (text "PCF" ++ (version ++ (0 :: (name ++ 0 :: fin)))).drop 6 = 0 :: (name ++ 0 :: fin) := rfl
  simp only [behind, drop, take]

theorem decompress_container {p : Pieces} (accepted : p.Accepted reencode) {name : Bytes} (noNul : 0 ∉ name) :
    decompress reencode (compress reencode name p) = some (name, p.original reencode) := by
  rw [decompress, compress, read_header_write_header noNul, Option.bind_some]
  simp only [decompress_file_written accepted, Option.map_some, if_pos]

/-- A deflate stream of one block that is not compressed. -/
def storedBlock : Reencode := fun _ data =>
  if data.length < 256 then
    some (1 :: UInt8.ofNat data.length :: 0 :: UInt8.ofNat (255 - data.length) :: 255 :: data)
  else none

/-- A ZIP file with a GZip file in it. -/
def zipped : Pieces :=
  .nested .zip [20, 0] [] (.plain (text "ab") (.stream .gzip [8, 0] [] (text "hello") .nil)) (.plain (text "x") .nil)

theorem decompress_container_zipped :
    decompress storedBlock (compress storedBlock (text "a.zip") zipped) =
      some (text "a.zip", zipped.original storedBlock) := by
  have flat : ∀ type : StreamType, type.incLast = false → ∀ hdr : Bytes, type.incLast = true → hdr ≠ [] :=
    fun type no hdr yes => absurd yes (by rw [no]; exact Bool.false_ne_true)
  have accepted : zipped.Accepted storedBlock :=
    ⟨by decide, flat .zip rfl _, rfl, ⟨by decide, flat .gzip rfl _, rfl, trivial⟩, by decide, trivial⟩
  exact decompress_container accepted (by decide)

end BackupSuite.Precomp
