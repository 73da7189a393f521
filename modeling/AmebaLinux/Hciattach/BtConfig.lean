/-
  AmebaLinux.Hciattach.BtConfig — the Bluetooth config file and what the efuse puts into it
  (`bluetooth/hciattach/rtb_fwc.c`: `rtb_read_config_from_efuse`, `rtb_parse_config`,
  `rtb_read_config`).

  A config is a magic, a length and entries. Both walks over the entries are given on the
  bytes from their cursor on: what lies before it they do not touch again. `none` is an
  access outside a buffer. The log of an address reads six bytes of its entry; whether that
  went past the buffer is kept apart (`past`), as nothing is written there.

  `size_t` holds every length there is, the `uint16_t` of the lengths is kept. Allocations
  succeed, and `list_extracfgs` is empty, so that `merge_configs` does nothing. `efuse i` is
  `efuse_config[i]`; the indices used stay below 0x11f, and 0x250 bytes are there.
-/

import AmebaLinux.Lib.Bytes
import AmebaLinux.Lib.Stores

namespace AmebaLinux.Hciattach.BtConfig

open AmebaLinux.Lib.Bytes
open AmebaLinux.Lib

/-! ## Entries -/

/-- `struct cfg_list_item`, of which `len` is the length of the data. -/
structure CfgItem where
  offset : UInt16
  data : List UInt8
  short : data.length < 256
  deriving DecidableEq, Repr

/-- The head of a `struct rtb_cfg_item`. -/
def CfgItem.header (e : CfgItem) : List UInt8 :=
  [UInt8.ofNat e.offset.toNat, UInt8.ofNat (e.offset.toNat / 256), UInt8.ofNat e.data.length]

def CfgItem.bytes (e : CfgItem) : List UInt8 := e.header ++ e.data

def body (es : List CfgItem) : List UInt8 := es.flatMap CfgItem.bytes

def offsetOf (lo hi : UInt8) : UInt16 := UInt16.ofNat (lo.toNat + 256 * hi.toNat)

/-! ## The efuse -/

def lefuse (x : Nat) : Nat := x - 0x1B0

def bit (n : Nat) : UInt8 := UInt8.ofNat (1 <<< n)

def hciMacAddrLen : Nat := 6

/-- Bytes of the efuse that are not 0xff, one for each byte of the entry. -/
def efuseBytes (efuse : Nat → UInt8) (base len : Nat) : List (Stores.Store UInt8) :=
  (List.range len).filterMap fun i =>
    if efuse (lefuse (base + i)) ≠ 0xff then some (i, fun _ => efuse (lefuse (base + i))) else none

/-- `efuse_config` holds an address. -/
def macAssigned (efuse : Nat → UInt8) : Bool :=
  efuse 4 ≠ 0xff || efuse 5 ≠ 0xff || efuse 6 ≠ 0xff || efuse 7 ≠ 0xff || efuse 8 ≠ 0xff || efuse 9 ≠ 0xff

/-- The stores for an entry, from its data on. -/
def stores (mp : Bool) (efuse : Nat → UInt8) (entryOffset : UInt16) (entryLen : Nat) : List (Stores.Store UInt8) :=
  if entryOffset = 0x0018 then if mp then [(0, fun b => b &&& ~~~(bit 2))] else []
  else if entryOffset = 0x0030 then
    if macAssigned efuse then (List.range hciMacAddrLen).map fun i => (i, fun _ => efuse (4 + hciMacAddrLen - 1 - i)) else []
  else if entryOffset = 0x0278 then
    let e := efuse (lefuse 0x1be)
    if e ≠ 0xff then
      [(0, fun _ => e)] ++
      (if e &&& bit 1 ≠ 0 then [(1, fun _ => efuse (lefuse 0x1bf))] else []) ++
      (if e &&& bit 2 ≠ 0 then
        [(2, fun _ => efuse (lefuse 0x1c0)), (3, fun _ => efuse (lefuse 0x1c1)), (4, fun _ => efuse (lefuse 0x1c2)),
          (5, fun _ => efuse (lefuse 0x1c3))]
      else []) ++
      (if e &&& bit 5 ≠ 0 then [(6, fun _ => efuse (lefuse 0x1c4)), (7, fun _ => efuse (lefuse 0x1c5))] else [])
    else []
  else if entryOffset = 0x0282 then efuseBytes efuse 0x1c8 entryLen
  else if entryOffset = 0x028a then efuseBytes efuse 0x1d0 entryLen
  else []

/-- How many bytes of the entry are logged. -/
def logged (entryOffset : UInt16) : Nat := if entryOffset = 0x0030 then 6 else 0

/-- The loop of `rtb_read_config_from_efuse`, with the bytes from `p` on. -/
def efuseWalk (mp : Bool) (efuse : Nat → UInt8) : Nat → List UInt8 → Option (List UInt8 × Bool)
  | _, [] => some ([], false)
  | fuel + 1, lo :: hi :: len :: rest =>
    let sts := stores mp efuse (offsetOf lo hi) len.toNat
    if ∀ s ∈ sts, s.1 < rest.length then
      let rest' := Stores.apply rest sts
      match efuseWalk mp efuse fuel (rest'.drop len.toNat) with
      | none => none
      | some (after, past) =>
        some (lo :: hi :: len :: rest'.take len.toNat ++ after, past || decide (rest.length < logged (offsetOf lo hi)))
    else none
  | _, _ => none

def rtbCfgHdrLen : Nat := 6

/-- The buffer after the call, and whether the log read past it. -/
def rtbReadConfigFromEfuse (mp : Bool) (efuse : Nat → UInt8) (configBuf : List UInt8) : Option (List UInt8 × Bool) :=
  (efuseWalk mp efuse configBuf.length (configBuf.drop rtbCfgHdrLen)).map fun r => (configBuf.take rtbCfgHdrLen ++ r.1, r.2)

/-! ## The parser -/

def cfgMagic : List UInt8 := [0x55, 0xab, 0x23, 0x87]

theorem take_short (len : UInt8) (rest : List UInt8) : (rest.take len.toNat).length < 256 := by
  have := len.toNat_lt
  rw [List.length_take]
  omega

/-- The loop that adds the entries to the list, with the bytes from `entry` on. -/
def listItems (cfgLen fuel i : Nat) (rest : List UInt8) : Option (List CfgItem) :=
  if i < cfgLen then
    match fuel, rest with
    | fuel + 1, lo :: hi :: len :: rest =>
      if len.toNat ≤ rest.length then
        (listItems cfgLen fuel ((i + len.toNat + 3) % 2 ^ 16) (rest.drop len.toNat)).map
          (⟨offsetOf lo hi, rest.take len.toNat, take_short len rest⟩ :: ·)
      else none
    | _, _ => none
  else some []

/-- What `rtb_parse_config` returns, with `list_configs` and the buffer after it. -/
structure Parsed where
  ret : Int
  list : List CfgItem
  buf : List UInt8
  deriving DecidableEq, Repr

/-- After the overlay, if there is an efuse. -/
def withEfuse (mp : Bool) (efuse : Option (Nat → UInt8)) (buf : List UInt8) : Option (List UInt8) :=
  match efuse with
  | none => some buf
  | some efuse =>
    match rtbReadConfigFromEfuse mp efuse buf with
    | some (buf, false) => some buf
    | _ => none

def rtbParseConfig (mp : Bool) (efuse : Option (Nat → UInt8)) (list : List CfgItem) (buf : List UInt8) : Option Parsed :=
  if buf.length = 0 then some ⟨-1, list, buf⟩
  else if buf.length < 4 then none
  else if buf.take 4 ≠ cfgMagic then some ⟨-1, list, buf⟩
  else if buf.length < rtbCfgHdrLen then none
  else
    let buf := buf.set 4 (UInt8.ofNat (buf.length - rtbCfgHdrLen))
    let cfgLen := (buf.getD 5 0).toNat * 256 + (buf.getD 4 0).toNat
    if cfgLen ≠ buf.length - rtbCfgHdrLen then some ⟨-1, list, buf⟩
    else
      match withEfuse mp efuse buf with
      | none => none
      | some buf =>
        match listItems cfgLen buf.length 0 (buf.drop rtbCfgHdrLen) with
        | none => none
        | some items => some ⟨0, list ++ items, buf⟩

/-! ## Reading the file -/

/-- The settings of the port in `rtb_cfg`. -/
structure RtbCfg where
  h4 : Bool
  vendorBaud : UInt32
  uartFlowCtrl : UInt32
  parenb : UInt16
  pareven : UInt16
  deriving DecidableEq, Repr

/-- What an entry sets. -/
def RtbCfg.item (cfg : RtbCfg) (n : CfgItem) : Option RtbCfg :=
  if n.offset = 0x000c then
    if n.data.length < 4 then none
    else
      let cfg := { cfg with vendorBaud := UInt32.ofNat (leNat (n.data.take 4)) }
      some (if 12 < n.data.length then { cfg with uartFlowCtrl := if n.data.getD 12 0 &&& 0x4 ≠ 0 then 1 else 0 } else cfg)
  else if n.offset = 0x0018 then
    if cfg.h4 then
      match n.data with
      | [] => none
      | d :: _ =>
        let cfg := if d &&& bit 2 ≠ 0 then { cfg with uartFlowCtrl := 1 } else cfg
        some (if d &&& 0x01 ≠ 0 then { cfg with parenb := 1, pareven := if d &&& 0x02 ≠ 0 then 1 else 0 } else cfg)
    else some cfg
  else some cfg

def RtbCfg.items (cfg : RtbCfg) : List CfgItem → Option RtbCfg
  | [] => some cfg
  | n :: list =>
    match cfg.item n with
    | none => none
    | some cfg => cfg.items list

/-- The buffer, `*cfg_len` and `rtb_cfg`; an inner `none` is `NULL`. The result of the parser
    is a `size_t`, and never below zero. -/
def rtbReadConfig (mp : Bool) (efuse : Option (Nat → UInt8)) (cfg : RtbCfg) (file : Option (List UInt8)) :
    Option (Option (List UInt8 × Nat) × RtbCfg) :=
  match file with
  | none => some (none, cfg)
  | some file =>
    match rtbParseConfig mp efuse [] file with
    | none => none
    | some r =>
      match cfg.items r.list with
      | none => none
      | some cfg =>
        let configLen := (6 + (r.list.map fun n => 3 + n.data.length).sum) % 2 ^ 16
        let dlen := (r.list.map fun n => 3 + n.data.length).sum % 2 ^ 16
        let buf := cfgMagic ++ [UInt8.ofNat dlen, UInt8.ofNat (dlen / 256)] ++ body r.list
        -- what is written has to fit what was allocated
        if buf.length ≤ configLen then some (some (buf, configLen), cfg) else none

end AmebaLinux.Hciattach.BtConfig
