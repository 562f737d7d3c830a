/-!
# The host's file system

What a session can reach outside its working directory, and how reading it fails.

A `Host` is the file system around the working directory, as a session reaches it: where
the working directory sits, what each trail from the root leads to, and where a name that is
too long is refused. The session takes it as a parameter; `Host.linux` is the one the
simulator meets on a Linux host.

In `Host.linux` the working directory is a fresh directory of the temporary directory.
Around it lies the root file system of a Linux host:

* the standard directories, with the top-level program and library directories linked into
  the user hierarchy;
* the standard programs, which are executables and no text;
* the null device, which reads as empty;
* the configuration tables every installation has;
* the process filesystem: the kernel's reports, the settings under `sys`, and the directory
  of the running process with its reports and its links to the working directory, the root
  and its own program.

A command file or a program stops at its first line that fails. Each report or table
fails on its first line, or its first line is a comment the next line after it decides.
So each is kept only as far as that deciding line: the rest of the file cannot show.
-/

namespace SimControl

/-- Why a file cannot be read, with the system's wording. -/
inductive ReadError where
  | notFound
  | isDirectory
  | notDirectory
  | nameTooLong
  | nulInName
  | notText
  /-- The device refused the read. -/
  | ioFailure
  /-- The file has no contents to read. -/
  | invalidArgument
  deriving DecidableEq

/-- The system's account of a read error. -/
def ReadError.message : ReadError → String
  | .notFound => "No such file or directory (os error 2)"
  | .isDirectory => "Is a directory (os error 21)"
  | .notDirectory => "Not a directory (os error 20)"
  | .nameTooLong => "File name too long (os error 36)"
  | .nulInName => "file name contained an unexpected NUL byte"
  | .notText => "stream did not contain valid UTF-8"
  | .ioFailure => "Input/output error (os error 5)"
  | .invalidArgument => "Invalid argument (os error 22)"

/-- What a path leads to. -/
inductive Node where
  /-- The working directory. -/
  | home
  /-- A directory of the host, by its names from the root. -/
  | dir (trail : List String)
  /-- A file: its contents, or why reading it fails. -/
  | file (contents : Except ReadError (List UInt8))

/-- A host's file system around the working directory. -/
structure Host where
  /-- The directory that holds the working directory, by its names from the root. -/
  homeParent : List String
  /-- The entry at a trail from the root, if there is one. -/
  entry? : List String → Option Node
  /-- Whether looking a name up in a directory refuses a name that is too long. -/
  checksNames : List String → Bool

namespace LinuxHost

/-- Where the working directory sits: a fresh directory of the temporary directory, so that
its parent is the temporary directory and the root is two levels up. -/
def homeParent : List String := ["tmp"]

/-- The directories of the host, by their names from the root. -/
def dirs : List (List String) :=
  [[], ["boot"], ["dev"], ["dev", "pts"], ["dev", "shm"], ["etc"], ["home"], ["media"], ["mnt"],
   ["opt"], ["root"], ["run"], ["srv"], ["tmp"], ["usr"], ["usr", "bin"],
   ["usr", "lib"], ["usr", "lib64"], ["usr", "local"], ["usr", "sbin"], ["usr", "share"],
   ["var"], ["var", "lib"], ["var", "log"], ["var", "tmp"],
   ["proc"], ["proc", "acpi"], ["proc", "bus"], ["proc", "driver"], ["proc", "fs"],
   ["proc", "irq"], ["proc", "pressure"], ["proc", "sysvipc"], ["proc", "tty"],
   ["proc", "sys"], ["proc", "sys", "abi"], ["proc", "sys", "debug"], ["proc", "sys", "dev"],
   ["proc", "sys", "fs"], ["proc", "sys", "kernel"], ["proc", "sys", "kernel", "random"],
   ["proc", "sys", "net"], ["proc", "sys", "net", "core"], ["proc", "sys", "user"],
   ["proc", "sys", "vm"],
   ["sys"], ["sys", "block"], ["sys", "bus"], ["sys", "class"], ["sys", "dev"],
   ["sys", "devices"], ["sys", "firmware"], ["sys", "fs"], ["sys", "kernel"],
   ["sys", "module"], ["sys", "power"],
   ["proc", "self"], ["proc", "self", "attr"], ["proc", "self", "fd"],
   ["proc", "self", "fdinfo"], ["proc", "self", "map_files"], ["proc", "self", "net"],
   ["proc", "self", "ns"], ["proc", "self", "task"]]

/-- The first bytes of an executable: the format's magic number and a byte that no text
holds. -/
def executableBytes : List UInt8 := [0x7f, 0x45, 0x4c, 0x46, 0x02, 0x01, 0x01, 0x00, 0xff]

/-- The first bytes of a compressed file: the format's magic number, whose second byte no
text begins with. -/
def compressedBytes : List UInt8 := [0x1f, 0x8b, 0x08, 0x00]

/-- The first entry of a process's auxiliary vector: two machine words, a tag and an
address, which are no text. -/
def auxiliaryBytes : List UInt8 :=
  [0x21, 0, 0, 0, 0, 0, 0, 0, 0x00, 0xd0, 0xfd, 0xf7, 0xfd, 0x7f, 0, 0]

/-- The programs every installation has. -/
def programs : List String := ["bash", "cat", "dash", "env", "ls", "sh"]

/-- The configuration tables every installation has, by the entry each begins with: the
superuser's account and group, and the loopback host. -/
def tables : List (String × String) :=
  [("group", "root:x:0:\n"), ("hosts", "127.0.0.1\tlocalhost\n"),
   ("passwd", "root:x:0:0:root:/root:/bin/bash\n")]

/-- The kernel's reports at the top of the process filesystem, each as far as its deciding
line; two are empty. -/
def kernelReports : List (String × String) :=
  [("buddyinfo", "Node 0, zone      DMA      0      0      0\n"),
   ("cgroups", "#subsys_name\thierarchy\tnum_cgroups\tenabled\ncpuset\t3\t1\t1\n"),
   ("consoles", "ttyS0                -W- (EC  p a)    4:64\n"),
   ("cpuinfo", "processor\t: 0\n"),
   ("crypto", "name         : cbc(aes)\n"),
   ("devices", "Character devices:\n"),
   ("diskstats", "   7       0 loop0 0 0 0 0 0 0 0 0 0 0 0 0 0 0 0 0 0\n"),
   ("dma", " 4: cascade\n"),
   ("execdomains", "0-0\tLinux           \t[kernel]\n"),
   ("filesystems", "nodev\tsysfs\n"),
   ("interrupts", "           CPU0       CPU1       CPU2       CPU3       \n"),
   ("iomem", "00000000-00000fff : Reserved\n"),
   ("ioports", "0000-0cf7 : PCI Bus 0000:00\n"),
   ("loadavg", "0.04 0.11 0.08 1/112 14140\n"),
   ("locks", ""),
   ("meminfo", "MemTotal:       32939528 kB\n"),
   ("misc", "234 btrfs-control\n"),
   ("mtrr", ""),
   ("pagetypeinfo", "Page block order: 9\n"),
   ("partitions", "major minor  #blocks  name\n"),
   ("slabinfo", "slabinfo - version: 2.1\n"),
   ("softirqs", "                    CPU0       CPU1       CPU2       CPU3       \n"),
   ("stat", "cpu  296409 0 47941 5171814 3397 0 6082 15021 0 0\n"),
   ("swaps", "Filename\t\t\t\tType\t\tSize\t\tUsed\t\tPriority\n"),
   ("uptime", "13826.12 51718.14\n"),
   ("version", "Linux version 6.18.44-fc-v437\n"),
   ("vmstat", "nr_free_pages 5502073\n"),
   ("zoneinfo", "Node 0, zone      DMA\n")]

/-- The running process's reports, each as far as its deciding line; one is empty. -/
def processReports : List (String × String) :=
  [("arch_status", "AVX512_elapsed_ms:\t32\n"),
   ("autogroup", "/autogroup-379 nice 0\n"),
   ("cgroup", "9:name=systemd:/\n"),
   ("coredump_filter", "00000033\n"),
   ("cpuset", "/\n"),
   ("gid_map", "         0          0 4294967295\n"),
   ("io", "rchar: 535546\n"),
   ("ksm_merging_pages", "0\n"),
   ("ksm_stat", "ksm_rmap_items 0\n"),
   ("limits", "Limit                     Soft Limit           Hard Limit           Units     \n"),
   ("loginuid", "4294967295\n"),
   ("mounts", "proc /proc proc rw,relatime 0 0\n"),
   ("mountstats", "device proc mounted on /proc with fstype proc\n"),
   ("oom_adj", "0\n"),
   ("oom_score", "666\n"),
   ("oom_score_adj", "0\n"),
   ("personality", "00000000\n"),
   ("projid_map", "         0          0 4294967295\n"),
   ("sessionid", "4294967295\n"),
   ("setgroups", "allow\n"),
   ("stack", "[<0>] proc_pid_stack+0xb1/0x150\n"),
   ("status", "Name:\tsimcontrol\n"),
   ("timens_offsets", "monotonic           0         0\n"),
   ("timers", ""),
   ("timerslack_ns", "50000\n"),
   ("uid_map", "         0          0 4294967295\n"),
   ("wchan", "0\n")]

/-- The kernel's settings under the process filesystem's `sys`, by their names below it. -/
def kernelSettings : List (List String × String) :=
  [(["fs", "file-max"], "3291158\n"),
   (["fs", "nr_open"], "1048576\n"),
   (["kernel", "domainname"], "(none)\n"),
   (["kernel", "ngroups_max"], "65536\n"),
   (["kernel", "osrelease"], "6.18.44-fc-v437\n"),
   (["kernel", "ostype"], "Linux\n"),
   (["kernel", "panic"], "1\n"),
   (["kernel", "pid_max"], "32768\n"),
   (["kernel", "printk"], "4\t4\t1\t7\n"),
   (["kernel", "random", "entropy_avail"], "256\n"),
   (["kernel", "random", "poolsize"], "256\n"),
   (["kernel", "shmmax"], "18446744073692774399\n"),
   (["kernel", "threads-max"], "257195\n"),
   (["kernel", "version"], "#1 SMP PREEMPT_DYNAMIC @0\n"),
   (["net", "core", "somaxconn"], "4096\n"),
   (["vm", "overcommit_memory"], "0\n"),
   (["vm", "swappiness"], "60\n")]

/-- A text file's contents. -/
def text (s : String) : Except ReadError (List UInt8) := .ok s.toUTF8.toList

/-- The file of the host at a trail from the root, if there is one: its contents, or why
reading it fails. The process's memory cannot be read at its start, and the file that
resets its page references has nothing to read. -/
def file? : List String → Option (Except ReadError (List UInt8))
  | ["dev", "null"] => some (.ok [])
  | ["usr", "bin", name] => if programs.contains name then some (.ok executableBytes) else none
  | ["etc", name] => text <$> tables.lookup name
  | ["proc", "config.gz"] => some (.ok compressedBytes)
  | ["proc", "self", "exe"] => some (.ok executableBytes)
  | ["proc", "self", "auxv"] => some (.ok auxiliaryBytes)
  | ["proc", "self", "mem"] => some (.error .ioFailure)
  | ["proc", "self", "clear_refs"] => some (.error .invalidArgument)
  | ["proc", "self", name] => text <$> processReports.lookup name
  | "proc" :: "sys" :: rest => text <$> kernelSettings.lookup rest
  | ["proc", name] => text <$> kernelReports.lookup name
  | _ => none

/-- The entry of the host at a trail from the root, if there is one. Links lead elsewhere:
the process filesystem's links to the working directory, the root, the process's own
directory and what it holds, and the top-level program and library directories. -/
def entry? (trail : List String) : Option Node :=
  match trail with
  | ["proc", "self", "cwd"] => some .home
  | ["proc", "self", "root"] => some (.dir [])
  | ["proc", "thread-self"] => some (.dir ["proc", "self"])
  | ["proc", "net"] => some (.dir ["proc", "self", "net"])
  | ["proc", "mounts"] => Node.file <$> file? ["proc", "self", "mounts"]
  | ["bin"] => some (.dir ["usr", "bin"])
  | ["sbin"] => some (.dir ["usr", "sbin"])
  | ["lib"] => some (.dir ["usr", "lib"])
  | ["lib64"] => some (.dir ["usr", "lib64"])
  | t => if dirs.contains t then some (.dir t) else Node.file <$> file? t

/-- Whether looking a name up in a directory refuses a name that is too long. The process
and system filesystems look names up without checking their length, so there a long name is
just one that does not exist. -/
def checksNames : List String → Bool
  | "proc" :: _ => false
  | "sys" :: _ => false
  | _ => true

end LinuxHost

/-- The file system of a Linux host, the working directory a fresh directory of its temporary
directory. -/
def Host.linux : Host := ⟨LinuxHost.homeParent, LinuxHost.entry?, LinuxHost.checksNames⟩

end SimControl
