import Mathlib.Order.Defs.LinearOrder
import Mathlib.Order.Lattice

/-!
# Synchronization states

The states of `sync_state_watcher.h`, in the order of the source, and their merge.
-/

namespace Peridot

inductive DownloadSyncState where
  | stopped
  | backlog
  | temporaryError
  | settingRemoteWatcher
  | idle
  | inProgress
  | permanentError
deriving DecidableEq, Inhabited

inductive UploadSyncState where
  | stopped
  | setup
  | idle
  | pending
  | waitTooManyLocalHeads
  | waitRemoteDownload
  | temporaryError
  | inProgress
  | permanentError
deriving DecidableEq, Inhabited

def DownloadSyncState.rank : DownloadSyncState → Nat
  | stopped => 0
  | backlog => 1
  | temporaryError => 2
  | settingRemoteWatcher => 3
  | idle => 4
  | inProgress => 5
  | permanentError => 6

def UploadSyncState.rank : UploadSyncState → Nat
  | stopped => 0
  | setup => 1
  | idle => 2
  | pending => 3
  | waitTooManyLocalHeads => 4
  | waitRemoteDownload => 5
  | temporaryError => 6
  | inProgress => 7
  | permanentError => 8

theorem DownloadSyncState.rank_injective : Function.Injective DownloadSyncState.rank := by
  intro first second same
  cases first <;> cases second <;> first | rfl | cases same

theorem UploadSyncState.rank_injective : Function.Injective UploadSyncState.rank := by
  intro first second same
  cases first <;> cases second <;> first | rfl | cases same

instance downloadStateOrder : LinearOrder DownloadSyncState :=
  LinearOrder.lift' DownloadSyncState.rank DownloadSyncState.rank_injective

instance uploadStateOrder : LinearOrder UploadSyncState :=
  LinearOrder.lift' UploadSyncState.rank UploadSyncState.rank_injective

structure SyncStateContainer where
  download : DownloadSyncState
  upload : UploadSyncState
deriving DecidableEq

namespace SyncStateContainer

def initial : SyncStateContainer :=
  ⟨.idle, .idle⟩

def merge (state other : SyncStateContainer) : SyncStateContainer where
  download := if other.download > state.download then other.download else state.download
  upload := if other.upload > state.upload then other.upload else state.upload

end SyncStateContainer

end Peridot
