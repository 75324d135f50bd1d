import Bnfs.ClientFrames

/-! What an operation keeps comes down to what its calls keep. The rules are for any preorder on the worlds, with the calls
of the operation as they stand in it. -/

namespace Bnfs

open FileSystem Programs

variable {E : Env} {R : World → World → Prop} [IsPreorder World R]

theorem executeEntry_keeps {headVal : QueueEntry}
    (hopen : Keeps R (posixOpen E .queueOpen headVal.path.bytes O_RDWR))
    (hwrite : ∀ fd, Keeps R (posixPwrite E .queuePwrite fd (headVal.buf.take headVal.size) headVal.offset))
    (hclose : ∀ fd, Keeps R (posixClose fd)) (hdup : ∀ fd, Keeps R (posixDup E fd)) :
    Keeps R (executeEntry E headVal) := by
  refine .ite (fun _ => ?_) fun _ => .ite (fun _ => ?_) fun _ => .pure _
  · refine hopen.bind fun fd => .ite (fun _ => .pure _) fun _ => ?_
    exact (hwrite fd).bind fun _ => (hclose fd).bind fun _ => .ite (fun _ => .pure _) fun _ => .pure _
  · cases headVal.fi with
    | none => exact .pure _
    | some fi => exact (hdup fi.fh).bind hclose

theorem createOnServer_keeps {path : CString} {fi : FuseFileInfo}
    (hstream : Keeps R (AFSClient.openStream E ⟨path.bytes, fi.flags, true⟩)) :
    Keeps R (AFSClient.createOnServer E path fi) :=
  hstream.bind fun _ => .ite (fun _ => .pure _) fun _ => .ite (fun _ => .pure _) fun _ => .pure _

variable [Sha256]

theorem fetchAndSyncServerFile_keeps {path : CString} {fi : FuseFileInfo}
    (hstream : Keeps R (AFSClient.openStream E ⟨path.bytes, fi.flags, false⟩))
    (hcache : ∀ data, Keeps R (ofstreamSave E .writeFileToCacheOpen .writeFileToCacheWrite (getCachePath path) data))
    (htemp : ∀ data, Keeps R (ofstreamSave E .writeFileToTempOpen .writeFileToTempWrite (getTempPath path) data)) :
    Keeps R (AFSClient.fetchAndSyncServerFile E path fi) := by
  refine hstream.bind fun replies => .ite (fun _ => .pure _) fun _ => .ite (fun _ => ?_) fun _ => .pure _
  refine .bind ?_ fun _ => .bind ?_ fun _ => .pure _
  · exact (hcache _).bind fun _ => .ite (fun _ => .pure _) fun _ => .pure _
  · exact (htemp _).bind fun _ => .ite (fun _ => .pure _) fun _ => .pure _

theorem commitToCache_keeps {path : CString} {t : Int}
    (hopen : Keeps R (posixOpen E .commitToCacheOpen (getTempPath path) O_RDWR)) (herrno : Keeps R getErrno)
    (hclose : ∀ fd, Keeps R (posixClose fd))
    (hcp : Keeps R (systemCp E .commitToCacheCp (getTempPath path) (getCachePath path)))
    (htemp : Keeps R (posixUtime E .commitToCacheUtimeTemp (getTempPath path) t))
    (hcache : Keeps R (posixUtime E .commitToCacheUtimeCache (getCachePath path) t))
    (herase : Keeps R (eraseDirty path)) : Keeps R (commitToCache E path t) := by
  refine hopen.bind fun fd => .ite (fun _ => ?_) fun _ => ?_
  · exact herrno.bind fun _ => .pure _
  · refine (hclose fd).bind fun _ => hcp.bind fun status => .ite (fun _ => .pure _) fun _ => ?_
    exact htemp.bind fun _ => hcache.bind fun _ => herase.bind fun _ => .pure _

theorem flush_keeps {path : CString} (hread : Keeps R (AFSClient.ifstreamRead E .clientFlushIfstream (getTempPath path)))
    (hput : ∀ requests, Keeps R (AFSClient.putFileStream E requests)) (hdelete : Keeps R (deleteFromTemp E path))
    (hcommit : ∀ t, Keeps R (commitToCache E path t)) : Keeps R (AFSClient.flush E path) := by
  refine hread.bind fun file => ?_
  cases file with
  | none => exact .pure _
  | some content =>
      refine .bind (fun w => refl_of R w) fun dirty => .ite (fun _ => .pure _) fun _ => .ite (fun _ => ?_) fun _ => ?_
      · exact (hput []).bind fun _ => hdelete.bind fun _ => .pure _
      · refine (hput _).bind fun reply => ?_
        cases reply with
        | none => exact .pure _
        | some reply => exact (hcommit _).bind fun _ => .pure _

theorem unlink_keeps {path : CString} (hdelete : Keeps R (deleteFromTemp E path))
    (hserver : Keeps R (unary E .unlink (FileServer.unlink E path.bytes))) : Keeps R (AFSClient.unlink E path) :=
  hdelete.bind fun _ => hserver.bind fun _ => .ite (fun _ => .pure _) fun _ => .pure _

theorem rename_keeps {old_path new_path : CString}
    (hopen : Keeps R (posixOpen E .isPresentInCache (getCachePath old_path) O_RDONLY))
    (hrename : Keeps R (posixRename E .clientRenameRename (getTempPath old_path) (getTempPath new_path)))
    (herrno : Keeps R getErrno) (hunmark : Keeps R (unmarkFileDirty E old_path)) (hmark : Keeps R (markFileDirty new_path))
    (hclose : ∀ fd, Keeps R (posixClose fd))
    (hserver : Keeps R (unary E .rename (FileServer.rename E old_path.bytes new_path.bytes))) :
    Keeps R (AFSClient.rename E old_path new_path) := by
  have honServer : Keeps R (AFSClient.renameOnServer E old_path new_path) :=
    hserver.bind fun _ => .ite (fun _ => .pure _) fun _ => .pure _
  refine hopen.bind fun fd => .ite (fun _ => ?_) fun _ => honServer
  refine hrename.bind fun ret => .ite (fun _ => ?_) fun _ => ?_
  · exact herrno.bind fun _ => .pure _
  · refine .bind (fun w => refl_of R w) fun dirty => .ite (fun _ => ?_) fun _ => ?_
    · exact hunmark.bind fun _ => hmark.bind fun _ => (hclose fd).bind fun _ => honServer
    · exact (hclose fd).bind fun _ => honServer

end Bnfs
