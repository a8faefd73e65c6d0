import Kumofs.Gateway.Request

/-!
# The cache of the gateway

`logic/gateway/mod_cache.cc`: an abstract database of values that servers have returned, under the
keys without their hashes. It may lose a record at any time, or not be configured at all.
-/

namespace Kumofs

/-- `DBKey::data`: the key without its hash. -/
def DBKey.data (k : DBKey) : Bytes := k.raw.drop keyMetaSize

namespace Gateway

/-- `m_db`. -/
abbrev Cache := Option Db

namespace Cache

/-- `mod_cache_t::get`. A record that is too short is not taken. -/
def get (c : Cache) (key : DBKey) : Option DBValue :=
  c.bind fun db => (db.lookup key.data).bind fun val =>
    if h : valueMetaSize ≤ val.length then some ⟨val, h⟩ else none

/-- `cache_update_proc`: the cached value is older. -/
def cacheUpdateProc (val : DBValue) : Bytes → Bool := Storage.updateproc val.clocktime

/-- `mod_cache_t::update`. -/
def update (c : Cache) (key : DBKey) (val : DBValue) : Cache :=
  c.map fun db => (db.update key.data val.raw (cacheUpdateProc val)).1

/-- What the callbacks of `Get` and of `GetIfModified` make of the cache. -/
def onReply (c : Cache) (key : DBKey) : Option Reply → Cache
  | some (.raw rawVal) =>
    if h : valueMetaSize ≤ rawVal.length then c.update key ⟨rawVal, h⟩ else c
  | _ => c

end Cache

end Gateway

end Kumofs
