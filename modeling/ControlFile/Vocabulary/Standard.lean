import ControlFile.Vocabulary.Basic

/-!
# The standard vocabulary

The keywords of the control language, in the order of their characters.  None of them has a
structure of its own: a keyword opens a statement, and what follows it is read as items of their
own.
-/

namespace ControlFile

/-- The keywords of the control language. -/
def Vocabulary.standard : Vocabulary := ⟨[
    "A_matrix", "A_matrix_normalized", "A_matrix_prm_filter", "C_matrix", "C_matrix_normalized",
    "Flack", "I", "I_parameter_names_have_hkl", "Lam", "Rp", "Rs", "WPPM_L_max", "WPPM_correct_Is",
    "WPPM_ft_conv", "WPPM_th2_range", "a", "a_add", "aberration_range_change_allowed",
    "accumulate_phases_and_save_to_file", "accumulate_phases_when", "activate",
    "add_pop_1st_2nd_peak", "add_to_cloud_N", "add_to_cloud_when",
    "add_to_phases_of_weak_reflections", "ai_anti_bump", "ai_closest_N", "ai_exclude_eq_0",
    "ai_flatten_with_tollerance_of", "ai_no_self_interation", "ai_only_eq_0", "ai_radius",
    "ai_sites_1", "ai_sites_2", "al", "amorphous_area", "amorphous_phase", "append_bond_lengths",
    "append_cartesian", "append_fractional", "apply_exp_scale", "approximate_A", "atom_out",
    "atomic_interaction", "auto_scale", "auto_sparse_CG", "axial_conv", "axial_del",
    "axial_n_beta", "b", "b_add", "be", "bkg", "bootstrap_errors", "box_interaction",
    "break_cycle_if_true", "brindley_spherical_r_cm", "bring_2nd_peak_to_top", "broaden_peaks",
    "c", "calculate_Lam", "capillary_diameter_mm", "capillary_divergent_beam",
    "capillary_parallel_beam", "capillary_u_cm_inv", "cell_mass", "cell_volume", "cf_hkl_file",
    "cf_in_A_matrix", "charge_flipping", "chi2", "chi2_convergence_criteria", "chk_for_best",
    "choose_from", "choose_randomly", "choose_to", "circles_conv", "cloud", "cloud_I",
    "cloud_N_to_extract", "cloud_atomic_separation", "cloud_extract_and_save_xyzs", "cloud_fit",
    "cloud_formation_omit_rwps", "cloud_gauss_fwhm", "cloud_load", "cloud_load_fixed_starting",
    "cloud_load_xyzs", "cloud_load_xyzs_omit_rwps", "cloud_match_gauss_fwhm",
    "cloud_min_intensity", "cloud_number_to_extract", "cloud_population",
    "cloud_pre_randimize_add_to", "cloud_save", "cloud_save_match_xy", "cloud_save_processed_xyzs",
    "cloud_save_xyzs", "cloud_stay_within", "cloud_try_accept", "conserve_memory",
    "consider_lattice_parameters", "continue_after_convergence", "convolute_X_recal",
    "convolution_step", "correct_for_atomic_scattering_factors", "correct_for_temperature_effects",
    "corrected_weight_percent", "crystalline_area", "current_peak_max_x", "current_peak_min_x",
    "d", "d_Is", "def", "default_I_attributes", "degree_of_crystallinity", "del", "del_approx",
    "delete_observed_reflections", "determine_values_from_samples", "displace", "do_errors",
    "do_errors_include_penalties", "do_errors_include_restraints", "dont_merge_Friedel_pairs",
    "dont_merge_equivalent_reflections", "dummy", "dummy_str", "element_weight_percent",
    "element_weight_percent_known", "elemental_composition", "exclude", "exp_conv_const",
    "exp_limit", "extend_calculated_sphere_to", "extra_X", "extra_X_left", "extra_X_right", "f0",
    "f0_f1_f11_atom", "f1", "f11", "f_atom_quantity", "f_atom_type", "filament_length", "file_out",
    "find_origin", "finish_X", "fit_obj", "fit_obj_phase",
    "flat_crystal_pre_monochromator_axial_const", "flip_equation", "flip_neutron", "flip_regime_2",
    "flip_regime_3", "fn", "fo_transform_X", "fourier_map", "fourier_map_formula",
    "fraction_density_to_flip", "fraction_of_yobs_to_resample", "fraction_reflections_weak",
    "ft_L_max", "ft_conv", "ft_convolution", "ft_min", "ft_x_axis_range", "fullprof_format", "ga",
    "gauss_fwhm", "generate_name_append", "generate_stack_sequences", "generate_these", "gof",
    "grs_interaction", "gsas_format", "gui_add_bkg", "h1", "h2", "half_hat", "hat", "hat_height",
    "height", "histogram_match_scale_fwhm", "hkl_Is", "hkl_Re_Im", "hkl_m_d_th2", "hklis",
    "hm_covalent_fwhm", "hm_size_limit_in_fwhm", "i_on_error_ratio_tolerance",
    "ignore_differences_in_Friedel_pairs", "in_FC", "in_cartesian", "in_str_format", "index_I",
    "index_d", "index_exclude_max_on_min_lp_less_than", "index_lam", "index_max_Nc_on_No",
    "index_max_lp", "index_max_number_of_solutions", "index_max_th2_error", "index_max_zero_error",
    "index_min_lp", "index_th2", "index_th2_resolution", "index_x0", "index_zero_error", "insert",
    "iters", "la", "lam", "layer", "layers_tol", "lebail", "lg", "lh", "line_min", "lo", "load",
    "lor_fwhm", "lp_search", "lpsd_beam_spill_correct_intensity",
    "lpsd_equitorial_divergence_degrees", "lpsd_equitorial_sample_length_mm",
    "lpsd_th2_angular_range_degrees", "m1", "m2", "mag_atom_out", "mag_only",
    "mag_only_for_mag_sites", "mag_space_group", "marquardt_constant",
    "match_transition_matrix_stats", "max", "max_X", "max_r", "mg", "min", "min_X", "min_d",
    "min_grid_spacing", "min_r", "mixture_MAC", "mixture_density_g_on_cm3", "mlx", "mly", "mlz",
    "modify_initial_phases", "modify_peak", "modify_peak_apply_before_convolutions",
    "modify_peak_eqn", "more_accurate_Voigt", "move_to",
    "move_to_the_next_temperature_regardless_of_the_change_in_rwp", "n", "n1", "n2", "n3", "n_avg",
    "ndx_allp", "ndx_alp", "ndx_belp", "ndx_blp", "ndx_clp", "ndx_galp", "ndx_gof", "ndx_sg",
    "ndx_uni", "ndx_vol", "ndx_ze", "neutron_data", "no_LIMIT_warnings", "no_f11", "no_inline",
    "no_normal_equations", "no_th_dependence", "normalize_FCs", "normals_plot",
    "normals_plot_min_d", "num_hats", "num_highest_I_values_to_keep", "num_patterns_at_a_time",
    "num_runs", "num_unique_vx_vy", "number_of_sequences", "number_of_stacks_per_sequence",
    "numerical_area", "numerical_lor_gauss_conv", "numerical_lor_ymin_on_ymax", "occ_merge",
    "occ_merge_radius", "omit", "omit_hkls", "on_best_goto", "on_best_rewind", "one_on_x_conv",
    "only_lps", "only_penalties", "operate_on_points", "out", "out_A_matrix", "out_chi2",
    "out_dependences", "out_dependents_for", "out_eqn", "out_file", "out_fmt", "out_fmt_err",
    "out_prm_vals_dependents_filter", "out_prm_vals_filter", "out_prm_vals_on_convergence",
    "out_prm_vals_per_iteration", "out_record", "out_refinement_stats", "out_rwp", "pdf_convolute",
    "pdf_data", "pdf_for_pairs", "pdf_gauss_fwhm", "pdf_info", "pdf_only_eq_0", "pdf_scale_simple",
    "pdf_ymin_on_ymax", "pdf_zero", "peak_buffer_based_on", "peak_buffer_based_on_tol",
    "peak_buffer_step", "peak_type", "pen_weight", "penalties_weighting_K1", "penalty",
    "percent_zeros_before_sparse_A", "phase_MAC", "phase_name", "phase_out", "phase_penalties",
    "pick_atoms", "pick_atoms_when", "pk_xo", "point_for_site", "pr_str", "primary_soller_angle",
    "prm_with_error", "process_times", "push_peak", "pv_fwhm", "pv_lor", "qa", "qb", "qc",
    "quick_refine", "quick_refine_remove", "qx", "qy", "qz", "r_bragg", "r_exp", "r_exp_dash",
    "r_p", "r_p_dash", "r_wp", "r_wp_dash", "r_wp_normal", "randomize_initial_phases_by",
    "randomize_on_errors", "randomize_phases_on_new_cycle_by", "range", "rebin_min_merge",
    "rebin_tollerance_in_Y", "rebin_with_dx_of", "recal_weighting_on_iter",
    "receiving_slit_length", "redo_hkls", "remove_phase", "report_on", "report_on_str",
    "resample_from_current_ycalc", "restraint", "return", "rigid", "rotate", "sample_length",
    "save_best_chi2", "save_sequences", "save_sequences_as_strs",
    "save_values_as_best_after_randomization", "scale", "scale_Aij", "scale_E", "scale_F",
    "scale_F000", "scale_density_below_threshold", "scale_phase_X", "scale_phases", "scale_pks",
    "scale_top_peak", "scale_weak_reflections", "secondary_soller_angle", "seed",
    "set_initial_phases_to", "sh_Cij_prm", "sh_alpha", "sh_order", "site_to_restrain",
    "sites_angle", "sites_avg_rand_xyz", "sites_distance", "sites_flatten", "sites_geometry",
    "sites_rand_on_avg", "sites_rand_on_avg_distance_to_randomize",
    "sites_rand_on_avg_min_distance", "siv_s1_s2", "smooth", "space_group", "sparse_A",
    "spherical_harmonics_hkl", "spiked_phase_measured_weight_percent", "spv_h1", "spv_h2",
    "spv_l1", "spv_l2", "stack", "stacked_hats_conv", "start_X", "start_values_from_site",
    "stop_when", "str", "str_hkl_angle", "str_hkl_smallest_angle", "str_mass", "strs", "sx", "sy",
    "symmetry_obey_0_to_1", "system_after_save_OUT", "system_before_save_OUT", "sz", "ta", "tag",
    "tag_2", "tangent_max_triplets_per_h", "tangent_min_triplets_per_h", "tangent_num_h_keep",
    "tangent_num_h_read", "tangent_num_k_read", "tangent_scale_difference_by", "tangent_tiny",
    "tb", "tc", "temperature", "test_a", "test_al", "test_b", "test_be", "test_c", "test_ga",
    "th2_offset", "to", "transition", "translate", "try_space_groups", "two_theta_calibration",
    "tx", "ty", "tz", "ua", "ub", "uc", "update", "use_CG", "use_Fc", "use_LU",
    "use_LU_for_errors", "use_best_values", "use_extrapolation", "use_layer",
    "use_tube_dispersion_coefficients", "user_defined_convolution", "user_threshold", "user_y",
    "ux", "uy", "uz", "v1", "val_on_continue", "verbose", "view_cloud", "view_structure", "volume",
    "weight_percent", "weight_percent_amorphous", "weighted_Durbin_Watson", "weighting",
    "weighting_normal", "whole_hat", "x", "x_angle_scaler", "x_axis_to_energy_in_eV",
    "x_calculation_step", "x_scaler", "xdd", "xdd_out", "xdd_scr", "xdd_sum", "xdds", "xo",
    "xo_Is", "xye_format", "y", "yc_eqn", "ymin_on_ymax", "yobs_eqn", "yobs_to_xo_posn_yobs", "z",
    "z_add", "z_matrix"]⟩

end ControlFile
