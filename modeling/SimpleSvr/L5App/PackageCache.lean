import SimpleSvr.Core.Bytes
import SimpleSvr.L1Encoding.IOBuffer

/-!
# The package cache of a TCP channel (`TcpServer.hpp`, `TcpClient.hpp`)

Both `OnReadable`s receive behind the bytes that are left over, show the handler
all of them, and keep what it does not read. `none` is an access outside the
cache.

* `receive_spec`: the handler is shown what was left over and the new chunk.
* `leave_spec`: what is left over is what it did not read.
-/
namespace SimpleSvr.L5

/-- What `recvmsg` does.
mirrors include/Channel.hpp:77-100 -/
inductive Recv where
  | fail
  | bytes (chunk : Bytes)

/-- mirrors include/TcpServer.hpp:19-31 -/
structure TcpChannelCache (CacheSize : UInt32) where
  dwCacheAvailableSize : UInt32
  cPackageCache : Bytes
  size : cPackageCache.length = CacheSize.toNat

namespace TcpChannelCache

variable {CacheSize : UInt32}

/-- The `int` that the subtraction is stored in.
mirrors include/TcpServer.hpp:118 -/
def dwRemainSize (c : TcpChannelCache CacheSize) : Int := (CacheSize - c.dwCacheAvailableSize).toInt32.toInt

/-- Overwrite a part of the cache. -/
def store (c : TcpChannelCache CacheSize) (pos : Nat) (bytes : Bytes) : Option (TcpChannelCache CacheSize) :=
  if h : pos + bytes.length ≤ c.cPackageCache.length then
    some { c with
      cPackageCache := c.cPackageCache.take pos ++ bytes ++ c.cPackageCache.drop (pos + bytes.length)
      size := by
        rw [← c.size]
        simp only [List.length_append, List.length_take, List.length_drop]
        omega }
  else none

/-- `recvmsg` puts `chunk` behind the bytes that are there.
mirrors include/TcpServer.hpp:126-142 -/
def receive (c : TcpChannelCache CacheSize) (chunk : Bytes) : Option (TcpChannelCache CacheSize) := do
  let c ← c.store c.dwCacheAvailableSize.toNat chunk
  some { c with dwCacheAvailableSize := c.dwCacheAvailableSize + UInt32.ofNat chunk.length }

/-- The buffer that `OnMessage` gets.
mirrors include/TcpServer.hpp:144-146 -/
def message (c : TcpChannelCache CacheSize) : L1.IOBuffer :=
  .new c.cPackageCache c.dwCacheAvailableSize.toUInt64 c.dwCacheAvailableSize.toUInt64

/-- `in` after the handler, by its read size and its read position.
mirrors include/TcpServer.hpp:149-155 -/
def leave (c : TcpChannelCache CacheSize) (readSize readPosition : UInt64) : Option (TcpChannelCache CacheSize) :=
  let c := { c with dwCacheAvailableSize := (readSize - readPosition).toUInt32 }
  if readPosition > 0 ∧ c.dwCacheAvailableSize > 0 then
    c.store 0 ((c.cPackageCache.drop readPosition.toNat).take c.dwCacheAvailableSize.toNat)
  else some c

/-- The cache without bytes: what `Connect` makes of it. -/
def reset (c : TcpChannelCache CacheSize) : TcpChannelCache CacheSize := { c with dwCacheAvailableSize := 0 }

/-- A cache of four bytes. -/
def fourBytes : TcpChannelCache 4 := ⟨0, [0, 0, 0, 0], rfl⟩

/-- The bytes that are in the cache. -/
def shown (c : TcpChannelCache CacheSize) : Bytes := c.cPackageCache.take c.dwCacheAvailableSize.toNat

variable {c c' : TcpChannelCache CacheSize} {chunk : Bytes}

/-- What is there fits. -/
def Fits (c : TcpChannelCache CacheSize) : Prop := c.dwCacheAvailableSize.toNat ≤ CacheSize.toNat

theorem fits_reset (c : TcpChannelCache CacheSize) : c.reset.Fits := Nat.zero_le _

theorem shown_reset (c : TcpChannelCache CacheSize) : c.reset.shown = [] := rfl

theorem length_shown (h : c.Fits) : c.shown.length = c.dwCacheAvailableSize.toNat := by
  rw [shown, List.length_take, c.size]
  exact Nat.min_eq_left h

theorem dwRemainSize_cond (c : TcpChannelCache CacheSize) :
    c.dwRemainSize = if 2 * (CacheSize - c.dwCacheAvailableSize).toNat < 2 ^ 32 then
      ((CacheSize - c.dwCacheAvailableSize).toNat : Int)
    else (CacheSize - c.dwCacheAvailableSize).toNat - (2 ^ 32 : Nat) :=
  BitVec.toInt_eq_toNat_cond _

theorem toNat_free (h : c.Fits) :
    (CacheSize - c.dwCacheAvailableSize).toNat = CacheSize.toNat - c.dwCacheAvailableSize.toNat :=
  UInt32.toNat_sub_of_le _ _ (UInt32.le_iff_toNat_le.mpr h)

/-- A chunk that the buffer for `recvmsg` holds fits in the free space. -/
theorem room (h : c.Fits) (hc : (chunk.length : Int) ≤ c.dwRemainSize) :
    c.dwCacheAvailableSize.toNat + chunk.length ≤ CacheSize.toNat := by
  have hfree := toNat_free h
  have hle : c.dwCacheAvailableSize.toNat ≤ CacheSize.toNat := h
  have hlt := (CacheSize - c.dwCacheAvailableSize).toNat_lt
  rw [dwRemainSize_cond] at hc
  split at hc <;> omega

/-- What a `store` in the cache makes of it. -/
theorem store_eq {pos : Nat} {bytes : Bytes} (h : pos + bytes.length ≤ CacheSize.toNat) :
    ∃ c', c.store pos bytes = some c' ∧ c'.dwCacheAvailableSize = c.dwCacheAvailableSize ∧
      c'.cPackageCache = c.cPackageCache.take pos ++ bytes ++ c.cPackageCache.drop (pos + bytes.length) := by
  rw [← c.size] at h
  exact ⟨_, dif_pos h, rfl, rfl⟩

theorem receive_spec (h : c.Fits) (hc : (chunk.length : Int) ≤ c.dwRemainSize) :
    ∃ c', c.receive chunk = some c' ∧ c'.Fits ∧ c'.shown = c.shown ++ chunk := by
  have hroom := room h hc
  obtain ⟨c₁, hc₁, havail, hcache⟩ := store_eq hroom
  have hmax := CacheSize.toNat_lt
  have hsum : (c.dwCacheAvailableSize + UInt32.ofNat chunk.length).toNat =
      c.dwCacheAvailableSize.toNat + chunk.length := by
    rw [UInt32.toNat_add, UInt32.toNat_ofNat']
    omega
  refine ⟨{ c₁ with dwCacheAvailableSize := c₁.dwCacheAvailableSize + UInt32.ofNat chunk.length }, ?_, ?_, ?_⟩
  · rw [receive, hc₁]
    rfl
  · simp only [Fits, havail, hsum]
    exact hroom
  · have hlen : (c.cPackageCache.take c.dwCacheAvailableSize.toNat ++ chunk).length =
        c.dwCacheAvailableSize.toNat + chunk.length := by
      rw [List.length_append]
      exact congrArg (· + _) (length_shown h)
    simp only [shown, havail, hsum, hcache]
    exact List.take_left' hlen

/-- What is left of the first `readSize` bytes of the cache, which need not be those that are there now. -/
theorem leave_eq {readSize readPosition : UInt64} (hsize : readSize.toNat ≤ CacheSize.toNat)
    (hpos : readPosition ≤ readSize) :
    ∃ c', c.leave readSize readPosition = some c' ∧ c'.Fits ∧
      c'.dwCacheAvailableSize.toNat = readSize.toNat - readPosition.toNat ∧
      c'.shown = (c.cPackageCache.take readSize.toNat).drop readPosition.toNat := by
  have hmax := CacheSize.toNat_lt
  have hp : readPosition.toNat ≤ readSize.toNat := UInt64.le_iff_toNat_le.mp hpos
  have hleft : (readSize - readPosition).toUInt32.toNat = readSize.toNat - readPosition.toNat := by
    rw [UInt64.toNat_toUInt32, UInt64.toNat_sub_of_le _ _ hpos]
    omega
  have hmoved : (c.cPackageCache.drop readPosition.toNat).take (readSize - readPosition).toUInt32.toNat =
      (c.cPackageCache.take readSize.toNat).drop readPosition.toNat := by
    rw [hleft, List.drop_take]
  have hlen : ((c.cPackageCache.take readSize.toNat).drop readPosition.toNat).length =
      (readSize - readPosition).toUInt32.toNat := by
    rw [List.length_drop, List.length_take, c.size, Nat.min_eq_left hsize, hleft]
  rw [leave]
  simp only [hmoved]
  split
  · have hroom : 0 + ((c.cPackageCache.take readSize.toNat).drop readPosition.toNat).length ≤ CacheSize.toNat := by
      omega
    obtain ⟨c', hc', havail, hcache⟩ :=
      @store_eq _ { c with dwCacheAvailableSize := (readSize - readPosition).toUInt32 } _ _ hroom
    refine ⟨c', hc', ?_, havail ▸ hleft, ?_⟩
    · rw [Fits, havail, hleft]
      omega
    · rw [shown, havail, hcache, List.take_zero, List.nil_append]
      exact List.take_left' hlen
  · next hno =>
    refine ⟨_, rfl, ?_, hleft, ?_⟩
    · rw [Fits, hleft]
      omega
    · rw [shown, ← hmoved]
      -- nothing was read, or everything
      by_cases h0 : readPosition > 0
      · have hzero : (readSize - readPosition).toUInt32 = 0 :=
          UInt32.le_zero_iff.mp (UInt32.not_lt.mp fun hlt => hno ⟨h0, hlt⟩)
        rw [hzero]
        rfl
      · have hzero : readPosition = 0 := UInt64.le_zero_iff.mp (UInt64.not_lt.mp h0)
        rw [hzero]
        rfl

theorem leave_spec {readPosition : UInt64} (h : c.Fits) (hpos : readPosition ≤ c.dwCacheAvailableSize.toUInt64) :
    ∃ c', c.leave c.dwCacheAvailableSize.toUInt64 readPosition = some c' ∧ c'.Fits ∧
      c'.shown = c.shown.drop readPosition.toNat := by
  have hsize : c.dwCacheAvailableSize.toUInt64.toNat = c.dwCacheAvailableSize.toNat := UInt32.toNat_toUInt64 _
  obtain ⟨c', hc', hfits, -, hshown⟩ := leave_eq (c := c) (Nat.le_trans (Nat.le_of_eq hsize) h) hpos
  refine ⟨c', hc', hfits, ?_⟩
  rw [hshown, hsize, shown]

end TcpChannelCache
end SimpleSvr.L5
