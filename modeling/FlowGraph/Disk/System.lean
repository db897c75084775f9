import FlowGraph.Disk.Entry

/-! What is known of every system before anything is put on its disk. -/
namespace FlowGraph.Disk

def emptyDirectories (names : List String) : List (String × Entry) :=
  names.map (·, .directory [] false)

/-- The programs that every system has. They are no text. -/
def programs : Entry :=
  .directory (["bash", "cat", "env", "ls", "sh"].map (·, .binary)) false

/-- The directories of the usual hierarchy, the null device, a standard input with nothing in it,
and a few files whose kind is known. Nothing can be put among the processes and the devices of the
kernel. -/
def system : Entry :=
  .directory
    (emptyDirectories
        ["boot", "home", "lib", "media", "mnt", "opt", "root", "run", "sbin", "srv", "tmp"] ++
      [("bin", programs),
        ("dev", .directory
          ([("null", .file ""), ("stdin", .file "")] ++ emptyDirectories ["pts", "shm"]) false),
        ("etc", .directory
          [("hosts", .file "127.0.0.1 localhost\n"),
            ("passwd", .file "root:x:0:0:root:/root:/bin/sh\n")] false),
        ("proc", .directory [("self", .directory [] true)] true),
        ("sys", .directory [] true),
        ("usr", .directory
          (("bin", programs) ::
            ("local", .directory (emptyDirectories ["bin", "lib", "share"]) false) ::
            emptyDirectories ["include", "lib", "sbin", "share", "src"]) false),
        ("var", .directory
          (emptyDirectories ["cache", "lib", "local", "log", "opt", "spool", "tmp"]) false)])
    false

end FlowGraph.Disk
