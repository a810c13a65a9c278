import PigaLinux.Kernel

namespace PigaLinux.ClassMap

open Kernel

def commonFileSockPerms : List String :=
  ["ioctl", "read", "write", "create", "getattr", "setattr", "lock", "relabelfrom", "relabelto", "append"]

def commonFilePerms : List String :=
  commonFileSockPerms ++ ["unlink", "link", "rename", "execute", "swapon", "quotaon", "mounton",
    "audit_access", "open", "execmod"]

def commonSockPerms : List String :=
  commonFileSockPerms ++ ["bind", "connect", "listen", "accept", "getopt", "setopt", "shutdown", "recvfrom",
    "sendto", "recv_msg", "send_msg", "name_bind"]

def commonIpcPerms : List String :=
  ["create", "destroy", "getattr", "setattr", "read", "write", "associate", "unix_read", "unix_write"]

/-- The kernel's own classes, each with its permissions, in the order that numbers them. -/
def secclassMap : List (String × List String) := [
  ("security", ["compute_av", "compute_create", "compute_member", "check_context", "load_policy",
    "compute_relabel", "compute_user", "setenforce", "setbool", "setsecparam", "setcheckreqprot",
    "read_policy"]),
  ("process", ["fork", "transition", "sigchld", "sigkill", "sigstop", "signull", "signal",
    "ptrace", "getsched", "setsched", "getsession", "getpgid", "setpgid", "getcap", "setcap",
    "share", "getattr", "setexec", "setfscreate", "noatsecure", "siginh", "setrlimit", "rlimitinh",
    "dyntransition", "setcurrent", "execmem", "execstack", "execheap", "setkeycreate",
    "setsockcreate"]),
  ("system", ["ipc_info", "syslog_read", "syslog_mod", "syslog_console", "module_request"]),
  ("capability", ["chown", "dac_override", "dac_read_search", "fowner", "fsetid", "kill", "setgid",
    "setuid", "setpcap", "linux_immutable", "net_bind_service", "net_broadcast", "net_admin",
    "net_raw", "ipc_lock", "ipc_owner", "sys_module", "sys_rawio", "sys_chroot", "sys_ptrace",
    "sys_pacct", "sys_admin", "sys_boot", "sys_nice", "sys_resource", "sys_time", "sys_tty_config",
    "mknod", "lease", "audit_write", "audit_control", "setfcap"]),
  ("filesystem", ["mount", "remount", "unmount", "getattr", "relabelfrom", "relabelto",
    "transition", "associate", "quotamod", "quotaget"]),
  ("file", commonFilePerms ++ ["execute_no_trans", "entrypoint"]),
  ("dir", commonFilePerms ++ ["add_name", "remove_name", "reparent", "search", "rmdir"]),
  ("fd", ["use"]),
  ("lnk_file", commonFilePerms),
  ("chr_file", commonFilePerms),
  ("blk_file", commonFilePerms),
  ("sock_file", commonFilePerms),
  ("fifo_file", commonFilePerms),
  ("socket", commonSockPerms),
  ("tcp_socket", commonSockPerms ++ ["connectto", "newconn", "acceptfrom", "node_bind",
    "name_connect"]),
  ("udp_socket", commonSockPerms ++ ["node_bind"]),
  ("rawip_socket", commonSockPerms ++ ["node_bind"]),
  ("node", ["tcp_recv", "tcp_send", "udp_recv", "udp_send", "rawip_recv", "rawip_send",
    "enforce_dest", "dccp_recv", "dccp_send", "recvfrom", "sendto"]),
  ("netif", ["tcp_recv", "tcp_send", "udp_recv", "udp_send", "rawip_recv", "rawip_send",
    "dccp_recv", "dccp_send", "ingress", "egress"]),
  ("netlink_socket", commonSockPerms),
  ("packet_socket", commonSockPerms),
  ("key_socket", commonSockPerms),
  ("unix_stream_socket", commonSockPerms ++ ["connectto", "newconn", "acceptfrom"]),
  ("unix_dgram_socket", commonSockPerms),
  ("sem", commonIpcPerms),
  ("msg", ["send", "receive"]),
  ("msgq", commonIpcPerms ++ ["enqueue"]),
  ("shm", commonIpcPerms ++ ["lock"]),
  ("ipc", commonIpcPerms),
  ("netlink_route_socket", commonSockPerms ++ ["nlmsg_read", "nlmsg_write"]),
  ("netlink_firewall_socket", commonSockPerms ++ ["nlmsg_read", "nlmsg_write"]),
  ("netlink_tcpdiag_socket", commonSockPerms ++ ["nlmsg_read", "nlmsg_write"]),
  ("netlink_nflog_socket", commonSockPerms),
  ("netlink_xfrm_socket", commonSockPerms ++ ["nlmsg_read", "nlmsg_write"]),
  ("netlink_selinux_socket", commonSockPerms),
  ("netlink_audit_socket", commonSockPerms ++ ["nlmsg_read", "nlmsg_write", "nlmsg_relay",
    "nlmsg_readpriv", "nlmsg_tty_audit"]),
  ("netlink_ip6fw_socket", commonSockPerms ++ ["nlmsg_read", "nlmsg_write"]),
  ("netlink_dnrt_socket", commonSockPerms),
  ("association", ["sendto", "recvfrom", "setcontext", "polmatch"]),
  ("netlink_kobject_uevent_socket", commonSockPerms),
  ("appletalk_socket", commonSockPerms),
  ("packet", ["send", "recv", "relabelto", "forward_in", "forward_out"]),
  ("key", ["view", "read", "write", "search", "link", "setattr", "create"]),
  ("dccp_socket", commonSockPerms ++ ["node_bind", "name_connect"]),
  ("memprotect", ["mmap_zero"]),
  ("peer", ["recv"]),
  ("capability2", ["mac_override", "mac_admin", "syslog"]),
  ("kernel_service", ["use_as_override", "create_files_as"]),
  ("tun_socket", commonSockPerms)]

/-- The number the kernel's hooks use for a class: its position, counted from one. -/
def kernelClass (c : String) : Option U16 :=
  (secclassMap.findIdx? fun e => e.1 = c).map fun i => BitVec.ofNat 16 (i + 1)

/-- The bit the kernel's hooks use for a permission of a class: its position in the class's list. -/
def kernelBit (c q : String) : Option Nat :=
  (secclassMap.find? fun e => e.1 = c).bind fun e => e.2.findIdx? fun x => x = q

example : kernelClass "association" = some 39 ∧ kernelBit "file" "relabelfrom" = some 7 := by decide

theorem permissions_le {e : String × List String} (he : e ∈ secclassMap) : e.2.length ≤ 32 := by
  have h : ∀ e ∈ secclassMap, e.2.length ≤ 32 := by decide
  exact h e he

theorem kernelBit_lt {c q : String} {b : Nat} (h : kernelBit c q = some b) : b < 32 := by
  obtain ⟨e, he, hb⟩ := Option.bind_eq_some_iff.mp h
  have hlen := permissions_le (List.mem_of_find?_eq_some he)
  have hlt := (List.findIdx?_eq_some_iff_getElem.mp hb).1
  omega

theorem kernelClass_of_bit {c q : String} {b : Nat} (h : kernelBit c q = some b) : ∃ k, kernelClass c = some k := by
  obtain ⟨e, he, -⟩ := Option.bind_eq_some_iff.mp h
  have hname := List.find?_some he
  rw [kernelClass]
  cases hindex : secclassMap.findIdx? fun e => e.1 = c with
  | none =>
      have hno := List.findIdx?_eq_none_iff.mp hindex e (List.mem_of_find?_eq_some he)
      exact absurd (hname.symm.trans hno) Bool.false_ne_true.symm
  | some i => exact ⟨_, rfl⟩

end PigaLinux.ClassMap
